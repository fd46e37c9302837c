import Sproutfs.Checkpoint.Segment

/-!
# The page table is the segment message

The parser's loops are folds over the fields of the message, so what a table's entries hold is what the
pages of the message say, whatever their order, and its checks come to those of the message's own decode.
The one difference is a page that names the last checkpoint of `2 ^ 32`.
-/

namespace Sproutfs.Checkpoint

open List Option ByteCodec Wire

variable {fs : List Field} {f : Field} {data : Bytes} {t : PageTable} {α β : Type*} {g : α → Option β}

/-! ## Pages and references -/

def setPage (p : ParsedPage) (f : Field) : ParsedPage := match f.value with
  | .varint n => p.set f.number n
  | _ => p

theorem set_other (p : ParsedPage) {number : Nat} (value : Nat) (h : number < 1 ∨ 6 < number) :
    p.set number value = p := by
  unfold ParsedPage.set
  split <;> first | rfl | exact absurd h (by decide)

theorem pageRound_eq (data : Bytes) (p : ParsedPage) :
    pageRound data p = fieldRound (fun p f => some (setPage p f)) data p := by
  rw [fieldRound_tag, pageRound]
  refine congrArg _ (funext fun ⟨number, kind, rest⟩ => ?_)
  dsimp only
  by_cases hn : maximumNumber < number
  · rw [if_pos hn, if_pos hn]
  · rw [if_neg hn, if_neg hn]
    by_cases hv : kind = varintType
    · subst hv
      rw [if_pos rfl]
      by_cases hk : number < 1 ∨ 6 < number
      · rw [if_pos (.inr hk), consumeFieldValue_varint]
        cases consumeVarint rest with
        | none => rfl
        | some q => simp [setPage, set_other p q.1 hk]
      · rw [if_neg (by simpa using hk)]
        cases consumeVarint rest <;> rfl
    · rw [if_neg hv, if_pos (.inl hv)]
      by_cases hb : kind = bytesType
      · subst hb
        rw [if_pos rfl, consumeFieldValue_bytes]
        cases consumeBytes rest <;> rfl
      · rw [if_neg hb]
        cases consumeFieldValue number kind rest <;> rfl

theorem scalar_concat (fs : List Field) (f : Field) (number : Nat) : scalar (fs ++ [f]) number =
    match f.value with
    | .varint n => if f.number = number then n else scalar fs number
    | _ => scalar fs number := by
  unfold scalar varints
  rw [filterMap_append]
  cases hv : f.value with
  | varint n =>
    by_cases hn : f.number = number
    · simp [hv, hn]
    · simp [hv, hn]
  | _ => simp [hv]

theorem byteStrings_concat (fs : List Field) (f : Field) (number : Nat) : byteStrings (fs ++ [f]) number =
    byteStrings fs number ++ match f.value with
      | .bytes b => if f.number = number then [b] else []
      | _ => [] := by
  unfold byteStrings
  rw [filterMap_append]
  cases hv : f.value with
  | bytes b =>
    by_cases hn : f.number = number
    · simp [hv, hn]
    · simp [hv, hn]
  | _ => simp [hv]

theorem foldl_setPage (fs : List Field) : fs.foldl setPage {} = pageOf fs := by
  induction fs using List.reverseRecOn with
  | nil => rfl
  | append_singleton fs f ih =>
    rw [foldl_concat, ih]
    unfold setPage
    cases hv : f.value with
    | varint n =>
      dsimp only
      unfold ParsedPage.set pageOf
      split <;> simp_all [scalar_concat]
    | _ => simp [pageOf, scalar_concat, hv]

theorem parsePage_eq_some {p : ParsedPage} :
    parsePage data = some p ↔ unmarshalPage data = some p ∧ p.part ≠ 2 ^ 32 - 1 := by
  have hfold : ∀ fs : List Field, fs.foldlM (fun p f => some (setPage p f)) {} = some (pageOf fs) := fun fs => by
    rw [← foldl_setPage]
    exact foldlM_pure
  rw [parsePage, rounds_eq pageRound_eq, unmarshalPage]
  cases fields data with
  | none => simp
  | some fs =>
    simp only [bind_some, hfold, map_some, ite_none_left_eq_some]
    constructor
    · rintro ⟨hne, heq⟩
      cases heq
      exact ⟨rfl, hne⟩
    · rintro ⟨heq, hne⟩
      cases heq
      exact ⟨hne, rfl⟩

def setRef (r : Ref) (f : Field) : Option Ref := match f.value with
  | .bytes v => if f.number = 1 then if validUTF8 v then some { r with vm := v } else none else some r
  | .varint n => if f.number = 2 then some { r with sequence := n } else some r
  | .other _ => some r

theorem refRound_eq (data : Bytes) (r : Ref) : refRound data r = fieldRound setRef data r := by
  rw [fieldRound_tag, refRound]
  refine congrArg _ (funext fun ⟨number, kind, rest⟩ => ?_)
  dsimp only
  by_cases hn : maximumNumber < number
  · rw [if_pos hn, if_pos hn]
  · rw [if_neg hn, if_neg hn]
    by_cases hb : kind = bytesType
    · subst hb
      rw [if_neg (c := bytesType = varintType) (by decide), if_pos (c := bytesType = bytesType) rfl]
      by_cases h1 : number = 1
      · rw [if_pos ⟨h1, rfl⟩]
        refine congrArg _ (funext fun ⟨v, r'⟩ => ?_)
        simp only [setRef, h1, if_true]
        split <;> rfl
      · rw [if_neg (fun h => h1 h.1), if_neg (fun h => absurd h.2 (by decide)), consumeFieldValue_bytes]
        cases consumeBytes rest <;> simp [setRef, h1]
    · rw [if_neg (fun h => hb h.2)]
      by_cases hv : kind = varintType
      · subst hv
        rw [if_pos (c := varintType = varintType) rfl]
        by_cases h2 : number = 2
        · rw [if_pos ⟨h2, rfl⟩]
          cases consumeVarint rest <;> simp [setRef, h2]
        · rw [if_neg (fun h => h2 h.1), consumeFieldValue_varint]
          cases consumeVarint rest <;> simp [setRef, h2]
      · rw [if_neg (fun h => hv h.2), if_neg hv, if_neg hb]
        cases consumeFieldValue number kind rest <;> rfl

theorem foldlM_setRef (fs : List Field) :
    fs.foldlM setRef ⟨[], 0⟩ = if (byteStrings fs 1).all validUTF8 then some (refOf fs) else none := by
  induction fs using List.reverseRecOn with
  | nil => rfl
  | append_singleton fs f ih =>
    rw [foldlM_append, ih, byteStrings_concat]
    by_cases hall : (byteStrings fs 1).all validUTF8
    · rw [if_pos hall]
      simp only [foldlM_cons, foldlM_nil, bind_eq_bind, bind_some, all_append, hall,
        Bool.true_and, setRef]
      cases hv : f.value with
      | bytes v =>
        by_cases h1 : f.number = 1
        · by_cases hu : validUTF8 v <;> simp [h1, hu, refOf, byteStrings_concat, scalar_concat, hv]
        · simp [h1, refOf, byteStrings_concat, scalar_concat, hv]
      | varint n =>
        by_cases h2 : f.number = 2 <;> simp [h2, refOf, byteStrings_concat, scalar_concat, hv]
      | other k => simp [refOf, byteStrings_concat, scalar_concat, hv]
    · rw [if_neg hall, if_neg (by simp only [all_append, Bool.and_eq_true]; exact fun h => hall h.1)]
      rfl

theorem parseRef_eq_some {r : Ref} : parseRef data = some r ↔ unmarshalRef data = some r ∧ r.Valid := by
  rw [parseRef, rounds_eq refRound_eq, unmarshalRef]
  cases fields data with
  | none => simp
  | some fs =>
    simp only [bind_some, foldlM_setRef]
    split
    · simp only [bind_some, ite_none_right_eq_some]
      constructor
      · rintro ⟨hvalid, heq⟩
        cases heq
        exact ⟨rfl, hvalid⟩
      · rintro ⟨heq, hvalid⟩
        cases heq
        exact ⟨hvalid, rfl⟩
    · simp

/-! ## The fields of a segment -/

def segmentStep (t : PageTable) (f : Field) : Option PageTable := match f.value with
  | .bytes v =>
    if f.number = 1 then (parsePage v).bind t.add
    else if f.number = 2 then (parseRef v).map fun ref => { t with refs := t.refs ++ [ref] }
    else if f.number = 3 then (parseRef v).map fun ref => { t with origins := t.origins ++ [ref] }
    else none
  | _ => none

theorem segmentRound_eq (data : Bytes) (t : PageTable) : segmentRound data t = fieldRound segmentStep data t := by
  rw [fieldRound_tag, segmentRound]
  refine congrArg _ (funext fun ⟨number, kind, rest⟩ => ?_)
  dsimp only
  by_cases hn : maximumNumber < number
  · rw [if_pos hn, if_pos hn]
  · rw [if_neg hn, if_neg hn]
    by_cases hb : kind = bytesType
    · subst hb
      rw [if_neg (c := bytesType = varintType) (by decide), if_pos (c := bytesType = bytesType) rfl]
      by_cases hk : number < 1 ∨ 3 < number
      · rw [if_pos (.inr hk)]
        cases consumeBytes rest with
        | none => rfl
        | some q =>
          simp only [bind_some, segmentStep]
          rw [if_neg (by omega), if_neg (by omega), if_neg (by omega)]
          rfl
      · rw [if_neg (by simpa using hk)]
        refine congrArg _ (funext fun ⟨v, r⟩ => ?_)
        simp only [segmentStep]
        split
        · rfl
        · split
          · cases parseRef v <;> rfl
          · rw [if_pos (by omega)]
            cases parseRef v <;> rfl
    · rw [if_pos (.inl hb), if_neg hb]
      split
      · cases consumeVarint rest <;> rfl
      · cases consumeFieldValue number kind rest <;> rfl

theorem mapM_cons_eq_some {a : α} {l : List α} {bs : List β} :
    (a :: l).mapM g = some bs ↔ ∃ b cs, g a = some b ∧ l.mapM g = some cs ∧ bs = b :: cs := by
  rw [mapM_cons]
  constructor
  · intro h
    obtain ⟨b, hb, h⟩ := bind_eq_some_iff.mp h
    obtain ⟨cs, hcs, h⟩ := bind_eq_some_iff.mp h
    cases h
    exact ⟨b, cs, hb, hcs, rfl⟩
  · rintro ⟨b, cs, hb, hcs, rfl⟩
    rw [hb, bind_eq_bind, bind_some, hcs]
    rfl

/-- The fields of a segment give its lists, and its pages one after another go into the entries. -/
theorem foldlM_segmentStep {t' : PageTable} : fs.foldlM segmentStep t = some t' ↔
    fs.all known ∧ ∃ ps rs os es, (byteStrings fs 1).mapM parsePage = some ps ∧
      (byteStrings fs 2).mapM parseRef = some rs ∧ (byteStrings fs 3).mapM parseRef = some os ∧
      ps.foldlM addEntry t.entries = some es ∧
      t' = { t with refs := t.refs ++ rs, origins := t.origins ++ os, entries := es } := by
  induction fs generalizing t with
  | nil =>
    constructor
    · intro h
      cases h
      exact ⟨rfl, [], [], [], _, rfl, rfl, rfl, rfl, by simp⟩
    · rintro ⟨-, ps, rs, os, es, hps, hrs, hos, hes, rfl⟩
      cases hps
      cases hrs
      cases hos
      cases hes
      simp
  | cons f fs ih =>
    rw [foldlM_cons, bind_eq_bind, bind_eq_some_iff, all_cons, Bool.and_eq_true]
    cases hv : f.value with
    | bytes v =>
      have hstr : ∀ number, byteStrings (f :: fs) number =
          if f.number = number then v :: byteStrings fs number else byteStrings fs number := fun number => by
        unfold byteStrings
        rw [filterMap_cons, hv]
        dsimp only
        split
        · next h => rw [if_neg (by intro hc; rw [if_pos hc] at h; cases h)]
        · next h =>
          obtain ⟨hc, h⟩ := ite_none_right_eq_some.mp h
          cases h
          rw [if_pos hc]
      have hknown : known f = true ↔ f.number = 1 ∨ f.number = 2 ∨ f.number = 3 := by
        simp only [known, hv, Bool.and_eq_true, decide_eq_true_eq]
        omega
      simp only [segmentStep, hv, hknown, hstr]
      by_cases h1 : f.number = 1
      · simp only [h1, if_true, Nat.reduceEqDiff, if_false, true_or, true_and, mapM_cons_eq_some]
        constructor
        · rintro ⟨t1, hstep, h⟩
          obtain ⟨p, hp, hadd⟩ := bind_eq_some_iff.mp hstep
          obtain ⟨es1, hes1, rfl⟩ := map_eq_some_iff.mp hadd
          obtain ⟨hall, ps, rs, os, es, hps, hrs, hos, hes, heq⟩ := ih.mp h
          refine ⟨hall, p :: ps, rs, os, es, ⟨p, ps, hp, hps, rfl⟩, hrs, hos, ?_, heq⟩
          rw [foldlM_cons, hes1]
          exact hes
        · rintro ⟨hall, _, rs, os, es, ⟨p, ps, hp, hps, rfl⟩, hrs, hos, hes, heq⟩
          rw [foldlM_cons, bind_eq_bind, bind_eq_some_iff] at hes
          obtain ⟨es1, hes1, hes⟩ := hes
          refine ⟨{ t with entries := es1 }, ?_, ih.mpr ⟨hall, ps, rs, os, es, hps, hrs, hos, hes, heq⟩⟩
          rw [hp, bind_some, PageTable.add, hes1]
          rfl
      · by_cases h2 : f.number = 2
        · simp only [h2, if_true, Nat.reduceEqDiff, if_false, or_true, true_or, true_and, mapM_cons_eq_some]
          constructor
          · rintro ⟨t1, hstep, h⟩
            obtain ⟨r, hr, rfl⟩ := map_eq_some_iff.mp hstep
            obtain ⟨hall, ps, rs, os, es, hps, hrs, hos, hes, heq⟩ := ih.mp h
            exact ⟨hall, ps, r :: rs, os, es, hps, ⟨r, rs, hr, hrs, rfl⟩, hos, hes, by simp [heq]⟩
          · rintro ⟨hall, ps, _, os, es, hps, ⟨r, rs, hr, hrs, rfl⟩, hos, hes, heq⟩
            refine ⟨{ t with refs := t.refs ++ [r] }, by rw [hr]; rfl,
              ih.mpr ⟨hall, ps, rs, os, es, hps, hrs, hos, hes, by simp [heq]⟩⟩
        · by_cases h3 : f.number = 3
          · simp only [h3, if_true, Nat.reduceEqDiff, if_false, or_true, true_and, mapM_cons_eq_some]
            constructor
            · rintro ⟨t1, hstep, h⟩
              obtain ⟨r, hr, rfl⟩ := map_eq_some_iff.mp hstep
              obtain ⟨hall, ps, rs, os, es, hps, hrs, hos, hes, heq⟩ := ih.mp h
              exact ⟨hall, ps, rs, r :: os, es, hps, hrs, ⟨r, os, hr, hos, rfl⟩, hes, by simp [heq]⟩
            · rintro ⟨hall, ps, rs, _, es, hps, hrs, ⟨r, os, hr, hos, rfl⟩, hes, heq⟩
              refine ⟨{ t with origins := t.origins ++ [r] }, by rw [hr]; rfl,
                ih.mpr ⟨hall, ps, rs, os, es, hps, hrs, hos, hes, by simp [heq]⟩⟩
          · simp [h1, h2, h3]
    | varint n => simp [segmentStep, known, hv]
    | other k => simp [segmentStep, known, hv]

/-! ## Entries -/

def entryOf (p : ParsedPage) : TableEntry where
  offset := p.offset
  length := p.length
  part := p.part
  ref := p.checkpoint + 1
  origin := p.origin

/-- What the table checks of a page alone. -/
abbrev ParsedPage.Fits (p : ParsedPage) : Prop := p.number < maximumSegmentPages ∧ p.checkpoint ≠ 2 ^ 32 - 1 ∧
  p.length ≠ 0 ∧ p.offset ≤ maximumPartSize ∧ p.length ≤ maximumPartSize - p.offset

variable {es es' : List TableEntry} {p : ParsedPage} {ps : List ParsedPage}

theorem getD_grown (es : List TableEntry) (m n : Nat) :
    (es ++ List.replicate m ({} : TableEntry)).getD n {} = es.getD n {} := by
  rw [getD_eq_getElem?_getD, getD_eq_getElem?_getD, getElem?_append]
  by_cases hn : n < es.length
  · rw [if_pos hn]
  · rw [if_neg hn, getElem?_eq_none (Nat.le_of_not_lt hn), getElem?_replicate]
    split <;> rfl

theorem addEntry_eq_some : addEntry es p = some es' ↔ p.Fits ∧ (es.getD p.number {}).ref = 0 ∧
    es' = (es ++ List.replicate (p.number + 1 - es.length) ({} : TableEntry)).set p.number (entryOf p) := by
  rw [addEntry]
  by_cases hfit : p.Fits
  · rw [if_neg (by omega)]
    simp only [getD_grown, ite_none_left_eq_some, ne_eq, not_not, Option.some.injEq]
    constructor
    · rintro ⟨hfree, rfl⟩
      exact ⟨hfit, hfree, rfl⟩
    · rintro ⟨-, hfree, rfl⟩
      exact ⟨hfree, rfl⟩
  · rw [if_pos (by omega)]
    simp [hfit]

theorem getD_addEntry (h : addEntry es p = some es') (n : Nat) :
    es'.getD n {} = if n = p.number then entryOf p else es.getD n {} := by
  obtain ⟨_, _, rfl⟩ := addEntry_eq_some.mp h
  rw [getD_eq_getElem?_getD, getElem?_set]
  by_cases hn : p.number = n
  · rw [if_pos hn, if_pos hn.symm, if_pos (by simp; omega), getD_some]
  · rw [if_neg hn, if_neg (Ne.symm hn), ← getD_eq_getElem?_getD, getD_grown]

theorem length_addEntry (h : addEntry es p = some es') (k : Nat) :
    es'.length ≤ k ↔ es.length ≤ k ∧ p.number < k := by
  obtain ⟨_, _, rfl⟩ := addEntry_eq_some.mp h
  rw [length_set, length_append, length_replicate]
  omega

/-- The pages that go into the entries: each fits, and none twice. -/
theorem addAll_isSome : (∃ es', ps.foldlM addEntry es = some es') ↔
    (∀ p ∈ ps, p.Fits ∧ (es.getD p.number {}).ref = 0) ∧ (ps.map (·.number)).Nodup := by
  induction ps generalizing es with
  | nil => simp
  | cons p ps ih =>
    simp only [foldlM_cons, bind_eq_bind, bind_eq_some_iff, map_cons, nodup_cons,
      forall_mem_cons]
    constructor
    · rintro ⟨es', es1, h1, h⟩
      obtain ⟨hall, hnd⟩ := ih.mp ⟨es', h⟩
      obtain ⟨hfit, hfree, -⟩ := addEntry_eq_some.mp h1
      have hne : ∀ q ∈ ps, q.number ≠ p.number := by
        intro q hq heq
        have hz := (hall q hq).2
        rw [getD_addEntry h1, if_pos heq] at hz
        exact absurd hz (Nat.succ_ne_zero _)
      refine ⟨⟨⟨hfit, hfree⟩, fun q hq => ⟨(hall q hq).1, ?_⟩⟩, fun hmem => ?_, hnd⟩
      · have hz := (hall q hq).2
        rwa [getD_addEntry h1, if_neg (hne q hq)] at hz
      · obtain ⟨q, hq, heq⟩ := mem_map.mp hmem
        exact hne q hq heq
    · rintro ⟨⟨⟨hfit, hfree⟩, hall⟩, hnot, hnd⟩
      obtain ⟨es1, h1⟩ : ∃ es1, addEntry es p = some es1 := ⟨_, addEntry_eq_some.mpr ⟨hfit, hfree, rfl⟩⟩
      have hrest : ∀ q ∈ ps, q.Fits ∧ (es1.getD q.number {}).ref = 0 := by
        intro q hq
        have hne : q.number ≠ p.number := fun heq => hnot (mem_map.mpr ⟨q, hq, heq⟩)
        rw [getD_addEntry h1, if_neg hne]
        exact hall q hq
      obtain ⟨es', h⟩ := ih.mpr ⟨hrest, hnd⟩
      exact ⟨es', es1, h1, h⟩

theorem addAll_spec (h : ps.foldlM addEntry es = some es') :
    (∀ n, es'.getD n {} = ((ps.find? fun p => decide (p.number = n)).map entryOf).getD (es.getD n {})) ∧
      ∀ k, es'.length ≤ k ↔ es.length ≤ k ∧ ∀ p ∈ ps, p.number < k := by
  induction ps generalizing es with
  | nil =>
    cases h
    simp
  | cons p ps ih =>
    have hnd := (addAll_isSome.mp ⟨es', h⟩).2
    simp only [foldlM_cons, bind_eq_bind, bind_eq_some_iff] at h
    obtain ⟨es1, h1, h⟩ := h
    obtain ⟨hat, hlen⟩ := ih h
    refine ⟨fun n => ?_, fun k => ?_⟩
    · rw [hat n, getD_addEntry h1, find?_cons]
      by_cases hn : p.number = n
      · have hnone : ps.find? (fun q => decide (q.number = n)) = none := by
          refine find?_eq_none.mpr fun q hq heq => (nodup_cons.mp hnd).1 ?_
          exact mem_map.mpr ⟨q, hq, (of_decide_eq_true heq).trans hn.symm⟩
        simp [hn, hnone]
      · simp [hn, Ne.symm hn]
    · rw [hlen k, length_addEntry h1, forall_mem_cons]
      tauto

/-! ## The root's check -/

/-- What an entry names of the table's lists. -/
abbrev TableEntry.Names (t : PageTable) (e : TableEntry) : Prop :=
  e.ref - 1 < t.refs.length ∧ (e.origin = 0 ∨ e.origin - 1 < t.origins.length)

theorem countPart_eq_some {parts parts' : List Nat} {e : TableEntry} :
    countPart t parts e = some parts' ↔ (e.ref = 0 ∧ parts' = parts) ∨
      (e.ref ≠ 0 ∧ e.Names t ∧ parts' = parts.modify (e.ref - 1) (max · (e.part + 1))) := by
  rw [countPart]
  by_cases hz : e.ref = 0
  · simp [hz, eq_comm]
  · by_cases hn : e.Names t
    · rw [if_neg hz, if_neg (by omega)]
      simp only [Option.some.injEq, hz, false_and, false_or]
      constructor
      · rintro rfl
        exact ⟨hz, hn, rfl⟩
      · rintro ⟨-, -, rfl⟩
        rfl
    · rw [if_neg hz, if_pos (by omega)]
      simp [hz, hn]

/-- Every entry names what the lists hold, and the counter of a checkpoint bounds its entries' parts. -/
theorem countParts_spec (t : PageTable) (es : List TableEntry) {parts : List Nat} (hlen : parts.length = t.refs.length) :
    ((∃ parts', es.foldlM (countPart t) parts = some parts') ↔ ∀ e ∈ es, e.ref = 0 ∨ e.Names t) ∧
      ∀ parts', es.foldlM (countPart t) parts = some parts' → parts'.length = t.refs.length ∧
        ∀ k < t.refs.length, ∀ b, parts'.getD k 0 ≤ b ↔
          parts.getD k 0 ≤ b ∧ ∀ e ∈ es, e.ref = k + 1 → e.part + 1 ≤ b := by
  induction es generalizing parts with
  | nil =>
    refine ⟨by simp, fun parts' h => ?_⟩
    cases h
    exact ⟨hlen, by simp⟩
  | cons e es ih =>
    simp only [foldlM_cons, bind_eq_bind, bind_eq_some_iff, countPart_eq_some,
      forall_mem_cons]
    by_cases hz : e.ref = 0
    · obtain ⟨hiff, hspec⟩ := ih hlen
      constructor
      · rw [← hiff]
        simp [hz]
      · rintro parts' ⟨parts1, h1, h⟩
        obtain ⟨-, rfl⟩ := h1.resolve_right fun h => h.1 hz
        obtain ⟨hl, hk⟩ := hspec parts' h
        refine ⟨hl, fun k hk' b => ?_⟩
        rw [hk k hk' b]
        simp [hz]
    · have hlen1 : (parts.modify (e.ref - 1) (max · (e.part + 1))).length = t.refs.length := by
        rw [length_modify, hlen]
      obtain ⟨hiff, hspec⟩ := ih hlen1
      constructor
      · constructor
        · rintro ⟨parts', parts1, h1, h⟩
          obtain ⟨-, hn, rfl⟩ := h1.resolve_left fun h => hz h.1
          exact ⟨.inr hn, hiff.mp ⟨parts', h⟩⟩
        · rintro ⟨hn, hall⟩
          obtain ⟨parts', h⟩ := hiff.mpr hall
          exact ⟨parts', _, .inr ⟨hz, hn.resolve_left hz, rfl⟩, h⟩
      · rintro parts' ⟨parts1, h1, h⟩
        obtain ⟨-, hn, rfl⟩ := h1.resolve_left fun h => hz h.1
        obtain ⟨hl, hk⟩ := hspec parts' h
        refine ⟨hl, fun k hk' b => ?_⟩
        rw [hk k hk' b, getD_eq_getElem?_getD, getElem?_modify, getElem?_eq_getElem (by omega)]
        by_cases hek : e.ref - 1 = k
        · have heq : e.ref = k + 1 := by omega
          simp [heq, getD_eq_getElem?_getD, getElem?_eq_getElem (show k < parts.length by omega), and_assoc]
        · have hne : ¬ e.ref = k + 1 := by omega
          simp [hek, hne, getD_eq_getElem?_getD, getElem?_eq_getElem (show k < parts.length by omega)]

variable {i : Index} {volume : Bytes}

/-- The root allows the part an entry names in its checkpoint. -/
abbrev Index.Allows (i : Index) (t : PageTable) (e : TableEntry) : Prop :=
  ∃ ref cost, t.refs[e.ref - 1]? = some ref ∧ i.checkpoints.lookup ref = some cost ∧ e.part < cost.parts

/-- Parsing and checking the table, of the entries alone: they name what the lists hold, and the root
allows them. -/
theorem checked_iff {table : VolumeTable} (hv : i.volumes.lookup volume = some table) :
    (∃ parts, t.entries.foldlM (countPart t) (List.replicate t.refs.length 0) = some parts ∧
      i.checkTable volume { t with parts := parts } = true) ↔
    t.entries.length ≤ table.geometry.segmentPages ∧
      ∀ e ∈ t.entries, e.ref = 0 ∨ (e.Names t ∧ i.Allows t e) := by
  obtain ⟨hiff, hspec⟩ := countParts_spec t t.entries (length_replicate (a := 0) (n := t.refs.length))
  have hcheck : ∀ parts, t.entries.foldlM (countPart t) (List.replicate t.refs.length 0) = some parts →
      (i.checkTable volume { t with parts := parts } = true ↔ t.entries.length ≤ table.geometry.segmentPages ∧
        ∀ e ∈ t.entries, e.ref = 0 ∨ i.Allows t e) := by
    intro parts h
    obtain ⟨hl, hk⟩ := hspec parts h
    have hnames := hiff.mp ⟨parts, h⟩
    rw [Index.checkTable, hv]
    simp only [Bool.and_eq_true, decide_eq_true_eq]
    refine and_congr_right fun _ => ?_
    rw [List.all_eq_true]
    constructor
    · intro hall e he
      by_cases hz : e.ref = 0
      · exact .inl hz
      · refine .inr ?_
        have hin : e.ref - 1 < t.refs.length := ((hnames e he).resolve_left hz).1
        have hmem : (t.refs[e.ref - 1], parts[e.ref - 1]) ∈ t.refs.zip parts := by
          refine mem_iff_getElem.mpr ⟨e.ref - 1, by rw [length_zip]; omega, ?_⟩
          rw [getElem_zip]
        have hpart := ((hk (e.ref - 1) hin (parts.getD (e.ref - 1) 0)).mp (Nat.le_refl _)).2 e he (by omega)
        rw [getD_eq_getElem?_getD, getElem?_eq_getElem (by omega), getD_some] at hpart
        have hok := hall _ hmem
        simp only [Bool.or_eq_true, decide_eq_true_eq] at hok
        rcases hok with hok | hok
        · omega
        · obtain ⟨cost, hcost, hle⟩ := (any_eq_true _ _).mp hok
          exact ⟨_, cost, getElem?_eq_getElem hin, hcost, by
            have := of_decide_eq_true hle
            omega⟩
    · intro hall q hq
      obtain ⟨k, hk', rfl⟩ := mem_iff_getElem.mp hq
      rw [length_zip] at hk'
      rw [getElem_zip]
      simp only [Bool.or_eq_true, decide_eq_true_eq]
      by_cases hnone : parts[k] = 0
      · exact .inl hnone
      · refine .inr ?_
        -- An entry names this checkpoint, for its counter is not zero.
        have hex : ∃ e ∈ t.entries, e.ref = k + 1 := by
          by_contra hno
          refine hnone (Nat.le_zero.mp ?_)
          have hle := (hk k (by omega) 0).mpr ⟨by simp [getElem?_replicate]; split <;> simp, fun e he heq =>
            absurd ⟨e, he, heq⟩ hno⟩
          rwa [getD_eq_getElem?_getD, getElem?_eq_getElem (by omega), getD_some] at hle
        obtain ⟨e, he, heq⟩ := hex
        obtain ⟨ref, cost, href, hcost, -⟩ := (hall e he).resolve_left (by omega)
        rw [show e.ref - 1 = k by omega, getElem?_eq_getElem (by omega)] at href
        cases href
        refine (any_eq_true _ _).mpr ⟨cost, hcost, decide_eq_true ?_⟩
        have hle := (hk k (by omega) cost.parts).mpr ⟨by simp [getElem?_replicate]; split <;> simp, fun e' he' heq' => ?_⟩
        · rwa [getD_eq_getElem?_getD, getElem?_eq_getElem (by omega), getD_some] at hle
        · obtain ⟨ref', cost', href', hcost', hpart⟩ := (hall e' he').resolve_left (by omega)
          rw [show e'.ref - 1 = k by omega, getElem?_eq_getElem (by omega)] at href'
          cases href'
          rw [hcost] at hcost'
          cases hcost'
          exact hpart
  constructor
  · rintro ⟨parts, h, hc⟩
    obtain ⟨hlen, hallow⟩ := (hcheck parts h).mp hc
    refine ⟨hlen, fun e he => ?_⟩
    by_cases hz : e.ref = 0
    · exact .inl hz
    · exact .inr ⟨(hiff.mp ⟨parts, h⟩ e he).resolve_left hz, (hallow e he).resolve_left hz⟩
  · rintro ⟨hlen, hall⟩
    obtain ⟨parts, h⟩ := hiff.mpr fun e he => (hall e he).imp_right And.left
    exact ⟨parts, h, (hcheck parts h).mpr ⟨hlen, fun e he => (hall e he).imp_right And.right⟩⟩

/-! ## The decode of the message -/

section Message

variable {rs os : List Ref} {segmentPages : Nat} {held held' : List (Nat × Location)}

theorem lookup_concat (held : List (Nat × Location)) (k n : Nat) (l : Location) :
    (held ++ [(k, l)]).lookup n = (held.lookup n).or (if n = k then some l else none) := by
  rw [lookup_append, lookup_cons, lookup_nil]
  by_cases hn : n = k
  · rw [if_pos hn, beq_iff_eq.mpr hn]
  · rw [if_neg hn, beq_false_of_ne hn]

theorem holdAll_isSome : (∃ held', ps.foldlM (i.hold segmentPages rs os) held = some held') ↔
    (∀ p ∈ ps, p.number < segmentPages ∧ held.lookup p.number = none ∧ (i.locate rs os p).isSome) ∧
      (ps.map (·.number)).Nodup := by
  induction ps generalizing held with
  | nil => simp
  | cons p ps ih =>
    simp only [foldlM_cons, bind_eq_bind, bind_eq_some_iff, map_cons, nodup_cons,
      forall_mem_cons, Index.hold, ite_none_left_eq_some, map_eq_some_iff, not_or, Nat.not_le,
      not_isSome_iff_eq_none]
    have hlookup : ∀ l n, (held ++ [(p.number, l)]).lookup n = none ↔ held.lookup n = none ∧ n ≠ p.number := by
      intro l n
      rw [lookup_concat, or_eq_none_iff]
      by_cases hn : n = p.number <;> simp [hn]
    constructor
    · rintro ⟨held', _, ⟨⟨hlt, hfree⟩, l, hl, rfl⟩, h⟩
      obtain ⟨hall, hnd⟩ := ih.mp ⟨held', h⟩
      refine ⟨⟨⟨hlt, hfree, by rw [hl]; rfl⟩, fun q hq => ?_⟩, fun hmem => ?_, hnd⟩
      · obtain ⟨h1, h2, h3⟩ := hall q hq
        exact ⟨h1, ((hlookup l _).mp h2).1, h3⟩
      · obtain ⟨q, hq, heq⟩ := mem_map.mp hmem
        exact ((hlookup l _).mp (hall q hq).2.1).2 heq
    · rintro ⟨⟨⟨hlt, hfree, hsome⟩, hall⟩, hnot, hnd⟩
      obtain ⟨l, hl⟩ := isSome_iff_exists.mp hsome
      obtain ⟨held', h⟩ := ih.mpr ⟨fun q hq => ⟨(hall q hq).1, (hlookup l _).mpr ⟨(hall q hq).2.1, fun heq =>
        hnot (mem_map.mpr ⟨q, hq, heq⟩)⟩, (hall q hq).2.2⟩, hnd⟩
      exact ⟨held', _, ⟨⟨hlt, hfree⟩, l, hl, rfl⟩, h⟩

theorem holdAll_lookup (h : ps.foldlM (i.hold segmentPages rs os) held = some held') (n : Nat) :
    held'.lookup n = (held.lookup n).or ((ps.find? fun p => decide (p.number = n)).bind (i.locate rs os)) := by
  induction ps generalizing held with
  | nil =>
    cases h
    simp
  | cons p ps ih =>
    rw [foldlM_cons, bind_eq_bind, bind_eq_some_iff] at h
    obtain ⟨held1, h1, h⟩ := h
    obtain ⟨_, h1⟩ := ite_none_left_eq_some.mp h1
    obtain ⟨l, hl, rfl⟩ := map_eq_some_iff.mp h1
    rw [ih h, lookup_concat, find?_cons, Option.or_assoc]
    by_cases hn : p.number = n
    · simp [hn, hl]
    · simp [hn, Ne.symm hn]

theorem locate_isSome (hvalid : ∀ r ∈ rs ++ os, r.Valid) : (i.locate rs os p).isSome ↔
    (entryOf p).Names { refs := rs, origins := os } ∧ i.Allows { refs := rs, origins := os } (entryOf p) ∧
      p.length ≠ 0 ∧ p.offset ≤ maximumPartSize ∧ p.length ≤ maximumPartSize - p.offset := by
  simp only [TableEntry.Names, Index.Allows, entryOf, Nat.add_sub_cancel, Index.locate]
  by_cases hin : p.checkpoint < rs.length
  · rw [getElem?_eq_getElem hin, bind_some]
    have hrv := hvalid _ (mem_append_left os (getElem_mem hin))
    by_cases ho : p.origin = 0 ∨ p.origin - 1 < os.length
    · -- The origin is one of the lists', and so valid.
      obtain ⟨origin, horigin, hov⟩ : ∃ origin, PageTable.originOf os rs[p.checkpoint] p.origin = some origin ∧
          origin.Valid := by
        by_cases hz : p.origin = 0
        · exact ⟨_, if_pos hz, hrv⟩
        · have ho := ho.resolve_left hz
          exact ⟨os[p.origin - 1], by rw [PageTable.originOf, if_neg hz, getElem?_eq_getElem ho],
            hvalid _ (mem_append_right rs (getElem_mem ho))⟩
      rw [horigin, bind_some, isSome_ite, Index.checkLocation]
      cases hc : i.checkpoints.lookup rs[p.checkpoint] with
      | none => simp [hc]
      | some cost =>
        simp [hc, hov, hin, ho]
        tauto
    · have hnone : PageTable.originOf os rs[p.checkpoint] p.origin = none := by
        rw [PageTable.originOf, if_neg (fun h => ho (.inl h)),
          getElem?_eq_none (Nat.le_of_not_lt fun h => ho (.inr h))]
      rw [hnone]
      simp [ho]
  · rw [getElem?_eq_none (Nat.le_of_not_lt hin)]
    simp [hin]

theorem find_number (hnd : (ps.map (·.number)).Nodup) (hp : p ∈ ps) :
    ps.find? (fun q => decide (q.number = p.number)) = some p := by
  induction ps with
  | nil => cases hp
  | cons q ps ih =>
    obtain ⟨hnot, hnd⟩ := nodup_cons.mp hnd
    rcases mem_cons.mp hp with rfl | hp
    · rw [find?_cons_of_pos (by simp)]
    · have hne : q.number ≠ p.number := fun heq => hnot (mem_map.mpr ⟨p, hp, heq.symm⟩)
      rw [find?_cons_of_neg (by simpa using hne), ih hnd hp]

theorem forall_entries {P : TableEntry → Prop} (h : ps.foldlM addEntry [] = some es) :
    (∀ e ∈ es, e.ref = 0 ∨ P e) ↔ ∀ p ∈ ps, P (entryOf p) := by
  have hnd := (addAll_isSome.mp ⟨es, h⟩).2
  have hat := (addAll_spec h).1
  constructor
  · intro hall p hp
    have hentry : es.getD p.number {} = entryOf p := by
      rw [hat, find_number hnd hp]
      rfl
    have hin : p.number < es.length := by
      by_contra hout
      rw [getD_eq_getElem?_getD, getElem?_eq_none (Nat.le_of_not_lt hout)] at hentry
      exact absurd (congrArg TableEntry.ref hentry) (Nat.succ_ne_zero p.checkpoint).symm
    rw [getD_eq_getElem?_getD, getElem?_eq_getElem hin, getD_some] at hentry
    have hmem := getElem_mem hin
    rw [hentry] at hmem
    exact (hall _ hmem).resolve_left (Nat.succ_ne_zero _)
  · intro hall e he
    obtain ⟨n, hn, rfl⟩ := mem_iff_getElem.mp he
    have hentry := hat n
    rw [getD_eq_getElem?_getD, getElem?_eq_getElem hn, getD_some] at hentry
    cases hf : ps.find? (fun p => decide (p.number = n)) with
    | none =>
      left
      rw [hentry, hf]
      rfl
    | some p =>
      right
      rw [hentry, hf]
      exact hall p (mem_of_find?_eq_some hf)

theorem pages_iff {table : VolumeTable} (hv : i.volumes.lookup volume = some table)
    (hvalid : ∀ r ∈ rs ++ os, r.Valid) (hfew : rs.length < 2 ^ 32) :
    ((∀ p ∈ ps, p.part ≠ 2 ^ 32 - 1) ∧ ∃ es parts, ps.foldlM addEntry [] = some es ∧
      es.foldlM (countPart { refs := rs, origins := os, entries := es }) (List.replicate rs.length 0) = some parts ∧
      i.checkTable volume { refs := rs, origins := os, entries := es, parts := parts } = true) ↔
    ∃ held, ps.foldlM (i.hold table.geometry.segmentPages rs os) [] = some held := by
  have hseg : table.geometry.segmentPages ≤ maximumSegmentPages := by
    rcases mem_cons.mp table.geometry.supported with h | h
    · rw [(Prod.mk.inj h).2]
      decide
    · rw [(Prod.mk.inj (mem_singleton.mp h)).2]
      decide
  rw [holdAll_isSome]
  constructor
  · rintro ⟨-, es, parts, hes, hparts, hcheck⟩
    obtain ⟨hfit, hnd⟩ := addAll_isSome.mp ⟨es, hes⟩
    obtain ⟨hlen, hall⟩ := (checked_iff hv).mp ⟨parts, hparts, hcheck⟩
    have hnumbers := ((addAll_spec hes).2 _).mp hlen
    have hpages := (forall_entries hes).mp hall
    refine ⟨fun p hp => ⟨hnumbers.2 p hp, rfl, (locate_isSome hvalid).mpr ?_⟩, hnd⟩
    exact ⟨(hpages p hp).1, (hpages p hp).2, (hfit p hp).1.2.2⟩
  · rintro ⟨hall, hnd⟩
    have hloc := fun p hp => (locate_isSome hvalid).mp (hall p hp).2.2
    have hfit : ∀ p ∈ ps, p.Fits := fun p hp => by
      have h1 := (hall p hp).1
      have h2 := (hloc p hp).1.1
      exact ⟨by omega, by simp only [entryOf] at h2; omega, (hloc p hp).2.2⟩
    obtain ⟨es, hes⟩ : ∃ es, ps.foldlM addEntry [] = some es :=
      addAll_isSome.mpr ⟨fun p hp => ⟨hfit p hp, rfl⟩, hnd⟩
    have hlen := ((addAll_spec hes).2 table.geometry.segmentPages).mpr
      ⟨Nat.zero_le _, fun p hp => (hall p hp).1⟩
    obtain ⟨parts, hparts, hcheck⟩ := (checked_iff (t := { refs := rs, origins := os, entries := es }) hv).mpr
      ⟨hlen, (forall_entries hes).mpr fun p hp => ⟨(hloc p hp).1, (hloc p hp).2.1⟩⟩
    refine ⟨fun p hp => ?_, es, parts, hes, hparts, hcheck⟩
    obtain ⟨ref, cost, -, -, hpart⟩ := (hloc p hp).2.1
    have := cost.fits
    simp only [entryOf] at hpart
    omega

theorem location_entryOf {l : Location} (h : i.locate t.refs t.origins p = some l) :
    t.location (entryOf p) = some l := by
  obtain ⟨ref, href, h⟩ := bind_eq_some_iff.mp h
  obtain ⟨origin, horigin, h⟩ := bind_eq_some_iff.mp h
  obtain ⟨_, h⟩ := ite_none_right_eq_some.mp h
  cases h
  have hne : ¬ (entryOf p).ref = 0 := Nat.succ_ne_zero _
  rw [PageTable.location, if_neg hne]
  simp only [entryOf, Nat.add_sub_cancel, href, bind_some, horigin, map_some]

theorem location_eq {parts : List Nat} (hes : ps.foldlM addEntry [] = some es)
    (hheld : ps.foldlM (i.hold segmentPages rs os) [] = some held) (n : Nat) :
    PageTable.locationAt { refs := rs, origins := os, entries := es, parts := parts } n = held.lookup n := by
  have hat := (addAll_spec hes).1 n
  rw [holdAll_lookup hheld n, lookup_nil, none_or, PageTable.locationAt]
  have hentry : es[n]?.bind (PageTable.location { refs := rs, origins := os, entries := es, parts := parts }) =
      PageTable.location { refs := rs, origins := os, entries := es, parts := parts } (es.getD n {}) := by
    rw [getD_eq_getElem?_getD]
    cases es[n]? <;> rfl
  rw [hentry, hat]
  cases hf : ps.find? (fun p => decide (p.number = n)) with
  | none => rfl
  | some p =>
    have hsome := ((holdAll_isSome.mp ⟨held, hheld⟩).1 p (mem_of_find?_eq_some hf)).2.2
    obtain ⟨l, hl⟩ := isSome_iff_exists.mp hsome
    rw [bind_some, hl]
    exact location_entryOf hl

theorem mapM_checked {g' : α → Option β} {P : β → Prop} (h : ∀ a b, g a = some b ↔ g' a = some b ∧ P b)
    {l : List α} {bs : List β} : l.mapM g = some bs ↔ l.mapM g' = some bs ∧ ∀ b ∈ bs, P b := by
  induction l generalizing bs with
  | nil =>
    constructor
    · intro hnil
      cases hnil
      exact ⟨rfl, by simp⟩
    · exact And.left
  | cons a l ih =>
    rw [mapM_cons_eq_some, mapM_cons_eq_some]
    constructor
    · rintro ⟨b, cs, hb, hcs, rfl⟩
      obtain ⟨hb, hP⟩ := (h a b).mp hb
      obtain ⟨hcs, hall⟩ := ih.mp hcs
      exact ⟨⟨b, cs, hb, hcs, rfl⟩, forall_mem_cons.mpr ⟨hP, hall⟩⟩
    · rintro ⟨⟨b, cs, hb, hcs, rfl⟩, hall⟩
      obtain ⟨hP, hall⟩ := forall_mem_cons.mp hall
      exact ⟨b, cs, (h a b).mpr ⟨hb, hP⟩, ih.mpr ⟨hcs, hall⟩, rfl⟩

theorem parsePageTable_eq_some {data : Bytes} : parsePageTable data = some t ↔
    ∃ m es parts, unmarshalSegment data = some m ∧ m.unknown = false ∧ (∀ r ∈ m.checkpoints ++ m.origins, r.Valid) ∧
      (∀ p ∈ m.pages, p.part ≠ 2 ^ 32 - 1) ∧ m.pages.foldlM addEntry [] = some es ∧
      es.foldlM (countPart { refs := m.checkpoints, origins := m.origins, entries := es })
        (List.replicate m.checkpoints.length 0) = some parts ∧
      t = { refs := m.checkpoints, origins := m.origins, entries := es, parts := parts } := by
  rw [parsePageTable, rounds_eq segmentRound_eq, unmarshalSegment]
  cases fields data with
  | none => simp
  | some fs =>
    simp only [bind_some, bind_eq_bind, bind_eq_some_iff, map_eq_some_iff,
      foldlM_segmentStep, mapM_checked (fun _ _ => parsePage_eq_some), mapM_checked (fun _ _ => parseRef_eq_some)]
    constructor
    · rintro ⟨_, ⟨hall, ps, rs, os, es, ⟨hps, hpart⟩, ⟨hrs, hvr⟩, ⟨hos, hvo⟩, hes, rfl⟩, parts, hparts, rfl⟩
      refine ⟨_, es, parts, ⟨ps, hps, rs, hrs, os, hos, rfl⟩, by rw [hall]; rfl, ?_, hpart, hes, hparts, rfl⟩
      exact fun r hr => (mem_append.mp hr).elim (hvr r) (hvo r)
    · rintro ⟨_, es, parts, ⟨ps, hps, rs, hrs, os, hos, hm⟩, hunknown, hvalid, hpart, hes, hparts, rfl⟩
      cases hm
      refine ⟨_, ⟨by simpa using hunknown, ps, rs, os, es, ⟨hps, hpart⟩, ⟨hrs, ?_⟩, ⟨hos, ?_⟩, hes, rfl⟩, parts,
        hparts, rfl⟩
      · exact fun r hr => hvalid r (mem_append_left _ hr)
      · exact fun r hr => hvalid r (mem_append_right _ hr)

theorem protobufSegment_eq_some {data : Bytes} : i.protobufSegment volume data = some held ↔
    ∃ table m, i.volumes.lookup volume = some table ∧ unmarshalSegment data = some m ∧ m.unknown = false ∧
      (∀ r ∈ m.checkpoints ++ m.origins, r.Valid) ∧
      m.pages.foldlM (i.hold table.geometry.segmentPages m.checkpoints m.origins) [] = some held := by
  simp only [Index.protobufSegment, bind_eq_bind, bind_eq_some_iff, ite_none_left_eq_some,
    not_or, Bool.not_eq_true, not_not]
  constructor
  · rintro ⟨table, hv, m, hm, ⟨hunknown, hvalid⟩, h⟩
    exact ⟨table, m, hv, hm, hunknown, hvalid, h⟩
  · rintro ⟨table, m, hv, hm, hunknown, hvalid, h⟩
    exact ⟨table, hv, m, hm, ⟨hunknown, hvalid⟩, h⟩

end Message

/-! ## The parser agrees with the message -/

/-- Of every segment that lists fewer than 2³² checkpoints, the parser followed by the root's check accepts
what the message's decode accepts, and locates every page as it does. -/
theorem page_table_agrees_with_message (i : Index) (volume data : Bytes)
    (hfew : ∀ m, unmarshalSegment data = some m → m.checkpoints.length < 2 ^ 32) :
    ((∃ t, parsePageTable data = some t ∧ i.checkTable volume t = true) ↔
      ∃ held, i.protobufSegment volume data = some held) ∧
    ∀ t held, parsePageTable data = some t → i.protobufSegment volume data = some held →
      ∀ n, t.locationAt n = held.lookup n := by
  constructor
  · constructor
    · rintro ⟨t, ht, hcheck⟩
      obtain ⟨m, es, parts, hm, hunknown, hvalid, hpart, hes, hparts, rfl⟩ := parsePageTable_eq_some.mp ht
      obtain ⟨table, hv⟩ : ∃ table, i.volumes.lookup volume = some table := by
        rw [Index.checkTable] at hcheck
        cases hv : i.volumes.lookup volume with
        | none =>
          rw [hv] at hcheck
          cases hcheck
        | some table => exact ⟨table, rfl⟩
      obtain ⟨held, hheld⟩ := (pages_iff hv hvalid (hfew m hm)).mp ⟨hpart, es, parts, hes, hparts, hcheck⟩
      exact ⟨held, protobufSegment_eq_some.mpr ⟨table, m, hv, hm, hunknown, hvalid, hheld⟩⟩
    · rintro ⟨held, h⟩
      obtain ⟨table, m, hv, hm, hunknown, hvalid, hheld⟩ := protobufSegment_eq_some.mp h
      obtain ⟨hpart, es, parts, hes, hparts, hcheck⟩ := (pages_iff hv hvalid (hfew m hm)).mpr ⟨held, hheld⟩
      exact ⟨_, parsePageTable_eq_some.mpr ⟨m, es, parts, hm, hunknown, hvalid, hpart, hes, hparts, rfl⟩, hcheck⟩
  · intro t held ht h n
    obtain ⟨m, es, parts, hm, -, -, -, hes, -, rfl⟩ := parsePageTable_eq_some.mp ht
    obtain ⟨table, m', -, hm', -, -, hheld⟩ := protobufSegment_eq_some.mp h
    rw [hm] at hm'
    cases hm'
    exact location_eq hes hheld n

/-! ## A segment of one page -/

def vm : Bytes := [118]

def vmRef : Ref := ⟨vm, 1⟩

/-- A segment whose one page is in the checkpoint at a slot, of a list that names one checkpoint `n` times. -/
def listing (n slot : Nat) : Bytes :=
  putFields (⟨1, .bytes (putFields [⟨2, .varint slot⟩, ⟨5, .varint 1⟩])⟩ ::
    List.replicate n ⟨2, .bytes (putFields [⟨1, .bytes vm⟩, ⟨2, .varint 1⟩])⟩)

/-- A root that holds one volume and names one checkpoint, of one part. -/
def vmRoot : Index where
  names := [vm]
  volumes := [(vm, { size := 4096, geometry := ⟨pageSize4KiB, 16 * 2 ^ 10, by decide⟩, ephemeral := false,
                     segments := [] })]
  checkpoints := [(vmRef, { parts := 1, bytes := 1, emptied := 0, fits := by decide })]
  state := Location.zero
  vcpus := 1
  nested := false

theorem vmRef_valid : vmRef.Valid := by decide

theorem mapM_replicate {a : α} {b : β} (h : g a = some b) (n : Nat) :
    (List.replicate n a).mapM g = some (List.replicate n b) := by
  induction n with
  | zero => rfl
  | succ n ih => exact mapM_cons_eq_some.mpr ⟨b, _, h, ih, rfl⟩

theorem unmarshal_listing (n : Nat) {slot : Nat} (hslot : slot < 2 ^ 32) : unmarshalSegment (listing n slot) =
    some { pages := [{ checkpoint := slot, length := 1 }], checkpoints := List.replicate n vmRef, origins := [],
           unknown := false } := by
  have hpage : unmarshalPage (putFields [⟨2, .varint slot⟩, ⟨5, .varint 1⟩]) =
      some { checkpoint := slot, length := 1 } := by
    rw [unmarshalPage, fields_putFields]
    · obtain ⟨m, rfl⟩ : ∃ m, slot = m % 2 ^ 32 := ⟨slot, (Nat.mod_eq_of_lt hslot).symm⟩
      simp [pageOf, scalar, varints]
    · simp only [forall_mem_cons, Field.Valid]
      exact ⟨⟨by decide, by decide, by omega⟩, ⟨by decide, by decide, by decide⟩, by simp⟩
  have href : unmarshalRef (putFields [⟨1, .bytes vm⟩, ⟨2, .varint 1⟩]) = some vmRef := by
    rw [unmarshalRef, fields_putFields]
    · rfl
    · simp only [forall_mem_cons, Field.Valid]
      exact ⟨⟨by decide, by decide, by decide⟩, ⟨by decide, by decide, by decide⟩, by simp⟩
  have hlen : (putFields [⟨2, .varint slot⟩, ⟨5, .varint 1⟩]).length < 2 ^ 64 := by
    have h := length_putVarint slot
    simp only [putFields, putField, flatMap_cons, flatMap_nil, length_append, length_nil]
    have h2 : (putVarint (2 * 8 + varintType)).length = 1 := rfl
    have h5 : (putVarint (5 * 8 + varintType)).length = 1 := rfl
    have h1 : (putVarint 1).length = 1 := rfl
    omega
  rw [listing, unmarshalSegment, fields_putFields]
  · have hone : ∀ number, byteStrings (⟨1, .bytes (putFields [⟨2, .varint slot⟩, ⟨5, .varint 1⟩])⟩ ::
        List.replicate n ⟨2, .bytes (putFields [⟨1, .bytes vm⟩, ⟨2, .varint 1⟩])⟩) number =
        (if 1 = number then [putFields [⟨2, .varint slot⟩, ⟨5, .varint 1⟩]] else []) ++
          (if 2 = number then List.replicate n (putFields [⟨1, .bytes vm⟩, ⟨2, .varint 1⟩]) else []) := by
      intro number
      rw [byteStrings, ← singleton_append, filterMap_append, filterMap_replicate]
      by_cases h1 : 1 = number <;> by_cases h2 : 2 = number <;> simp [h1, h2]
    have hall : (List.replicate n (⟨2, .bytes (putFields [⟨1, .bytes vm⟩, ⟨2, .varint 1⟩])⟩ : Field)).all known :=
      all_eq_true.mpr fun f hf => by rw [eq_of_mem_replicate hf]; rfl
    simp only [hone, bind_eq_bind, bind_some, Nat.reduceEqDiff, if_true, if_false, append_nil,
      nil_append, mapM_replicate href]
    rw [mapM_cons_eq_some.mpr ⟨_, [], hpage, rfl, rfl⟩, all_cons, hall]
    rfl
  · intro f hf
    rcases mem_cons.mp hf with rfl | hf
    · exact ⟨Nat.le_refl 1, (by decide : 1 ≤ maximumNumber), hlen⟩
    · rw [eq_of_mem_replicate hf]
      exact ⟨by decide, by decide, by decide⟩

theorem protobuf_listing {n slot : Nat} (hn : slot < n) (hslot : slot < 2 ^ 32) :
    vmRoot.protobufSegment vm (listing n slot) = some [(0, ⟨vmRef, vmRef, 0, 0, 1⟩)] := by
  have hlocate : vmRoot.locate (List.replicate n vmRef) [] { checkpoint := slot, length := 1 } =
      some ⟨vmRef, vmRef, 0, 0, 1⟩ := by
    rw [Index.locate]
    dsimp only
    rw [getElem?_replicate, if_pos hn, bind_some]
    rfl
  refine protobufSegment_eq_some.mpr ⟨_, _, rfl, unmarshal_listing n hslot, rfl, ?_, ?_⟩
  · rw [append_nil]
    intro r hr
    rw [eq_of_mem_replicate hr]
    exact vmRef_valid
  · have hfree : ¬ (16 * 2 ^ 10 ≤ 0 ∨ (List.lookup 0 ([] : List (Nat × Location))).isSome = true) := by decide
    rw [foldlM_cons, Index.hold, if_neg hfree, hlocate]
    rfl

/-- A segment that lists 2³² checkpoints, and whose page is in the last, is a message the root allows; the
parser keeps that slot for no checkpoint, and refuses it. -/
theorem last_slot_is_refused : parsePageTable (listing (2 ^ 32) (2 ^ 32 - 1)) = none ∧
    vmRoot.protobufSegment vm (listing (2 ^ 32) (2 ^ 32 - 1)) = some [(0, ⟨vmRef, vmRef, 0, 0, 1⟩)] := by
  refine ⟨eq_none_iff_forall_not_mem.mpr fun t ht => ?_, protobuf_listing (by decide) (by decide)⟩
  obtain ⟨m, es, -, hm, -, -, -, hes, -⟩ := parsePageTable_eq_some.mp ht
  rw [unmarshal_listing _ (by decide)] at hm
  cases hm
  exact absurd rfl ((addAll_isSome.mp ⟨es, hes⟩).1 _ mem_cons_self).1.2.1

theorem page_table_agrees_sample : (∃ t, parsePageTable (listing 1 0) = some t ∧ vmRoot.checkTable vm t = true) ∧
    ∀ t, parsePageTable (listing 1 0) = some t → t.locationAt 0 = some ⟨vmRef, vmRef, 0, 0, 1⟩ := by
  have hheld : vmRoot.protobufSegment vm (listing 1 0) = some [(0, ⟨vmRef, vmRef, 0, 0, 1⟩)] :=
    protobuf_listing (by decide) (by decide)
  obtain ⟨hiff, hloc⟩ := page_table_agrees_with_message vmRoot vm (listing 1 0) fun m hm => by
    rw [unmarshal_listing 1 (by decide)] at hm
    cases hm
    decide
  exact ⟨hiff.mpr ⟨_, hheld⟩, fun t ht => hloc t _ ht hheld 0⟩

end Sproutfs.Checkpoint
