import Sproutfs.Lib.Bytes

/-!
# The protobuf wire format

A message is a sequence of fields, each a tag with a number and a wire type and then a value. `fields` reads
a whole message, and `putFields` writes the varint and byte fields of one.
-/

namespace Wire

open ByteCodec

/-! ## Varints -/

/-- The varint of `n`: seven bits a byte, the lowest first, in at most `k + 1` bytes. -/
def putVarintIn : Nat → Nat → Bytes
  | 0, n => [UInt8.ofNat n]
  | k + 1, n => if n < 128 then [UInt8.ofNat n] else UInt8.ofNat (n % 128 + 128) :: putVarintIn k (n / 128)

def putVarint (n : Nat) : Bytes := putVarintIn 9 n

/-- Read a varint that has at most `k + 1` bytes left. The last byte of ten holds one bit. -/
def consumeVarintIn : Nat → Bytes → Option (Nat × Bytes)
  | _, [] => none
  | 0, b :: rest => if b.toNat < 2 then some (b.toNat, rest) else none
  | k + 1, b :: rest =>
    if b.toNat < 128 then some (b.toNat, rest)
    else (consumeVarintIn k rest).map fun (n, r) => (b.toNat - 128 + 128 * n, r)

def consumeVarint (b : Bytes) : Option (Nat × Bytes) := consumeVarintIn 9 b

/-! ## Fields -/

def varintType : Nat := 0
def fixed64Type : Nat := 1
def bytesType : Nat := 2
def startGroupType : Nat := 3
def endGroupType : Nat := 4
def fixed32Type : Nat := 5

/-- The largest number of a field; a tag can carry a larger one. -/
def maximumNumber : Nat := 2 ^ 29 - 1

/-- How deep groups may lie in one another. -/
def recursionLimit : Nat := 10000

def consumeTag (b : Bytes) : Option (Nat × Nat × Bytes) := do
  let (v, r) ← consumeVarint b
  if v / 8 < 1 ∨ 2 ^ 31 - 1 < v / 8 then none else some (v / 8, v % 8, r)

def consumeBytes (b : Bytes) : Option (Bytes × Bytes) := do
  let (n, r) ← consumeVarint b
  if n ≤ r.length then some (r.take n, r.drop n) else none

/-- Skip a value that is no group. -/
def skipFlat (type : Nat) (b : Bytes) : Option Bytes :=
  if type = varintType then (consumeVarint b).map (·.2)
  else if type = bytesType then (consumeBytes b).map (·.2)
  else if type = fixed64Type then if 8 ≤ b.length then some (b.drop 8) else none
  else if type = fixed32Type then if 4 ≤ b.length then some (b.drop 4) else none
  else none

/-- Skip the fields of a group and its end tag. Every round takes a byte at least, so there are no more
rounds than bytes. -/
def skipGroup : Nat → Nat → Nat → Bytes → Option Bytes
  | 0, _, _, _ => none
  | rounds + 1, depth, number, b => do
    let (inner, type, r) ← consumeTag b
    if type = endGroupType then if inner = number then some r else none
    else if type = startGroupType then
      if depth = 0 then none else (skipGroup rounds (depth - 1) inner r).bind (skipGroup rounds depth number)
    else (skipFlat type r).bind (skipGroup rounds depth number)

def consumeFieldValue (number type : Nat) (b : Bytes) : Option Bytes :=
  if type = startGroupType then skipGroup b.length recursionLimit number b else skipFlat type b

inductive Value where
  | varint (n : Nat)
  | bytes (b : Bytes)
  /-- A fixed-width number or a group, which nothing here reads. -/
  | other (type : Nat)
  deriving DecidableEq, Repr

structure Field where
  number : Nat
  value : Value
  deriving DecidableEq, Repr

/-- Read one field of a message. -/
def consumeField (b : Bytes) : Option (Field × Bytes) := do
  let (number, type, r) ← consumeTag b
  if maximumNumber < number then none
  else if type = varintType then (consumeVarint r).map fun (n, r) => (⟨number, .varint n⟩, r)
  else if type = bytesType then (consumeBytes r).map fun (v, r) => (⟨number, .bytes v⟩, r)
  else (consumeFieldValue number type r).map fun r => (⟨number, .other type⟩, r)

/-! ## Reading makes progress -/

variable {b r : Bytes} {n number type : Nat} {f : Field}

theorem consumeVarintIn_shorter {k : Nat} (h : consumeVarintIn k b = some (n, r)) : r.length < b.length := by
  induction k generalizing b n r with
  | zero =>
    cases b with
    | nil => cases h
    | cons x rest =>
      obtain ⟨_, h⟩ := Option.ite_none_right_eq_some.mp h
      cases h
      exact Nat.lt_succ_self _
  | succ k ih =>
    cases b with
    | nil => cases h
    | cons x rest =>
      rw [consumeVarintIn] at h
      split at h
      · cases h
        exact Nat.lt_succ_self _
      · obtain ⟨⟨m, r'⟩, hm, heq⟩ := Option.map_eq_some_iff.mp h
        cases heq
        exact Nat.lt_succ_of_lt (ih hm)

theorem consumeVarint_shorter (h : consumeVarint b = some (n, r)) : r.length < b.length :=
  consumeVarintIn_shorter h

theorem consumeTag_shorter (h : consumeTag b = some (number, type, r)) : r.length < b.length := by
  obtain ⟨⟨v, r'⟩, hv, h⟩ := Option.bind_eq_some_iff.mp h
  obtain ⟨_, h⟩ := Option.ite_none_left_eq_some.mp h
  cases h
  exact consumeVarint_shorter hv

theorem consumeBytes_shorter {v : Bytes} (h : consumeBytes b = some (v, r)) : r.length < b.length := by
  obtain ⟨⟨n, r'⟩, hn, h⟩ := Option.bind_eq_some_iff.mp h
  obtain ⟨_, h⟩ := Option.ite_none_right_eq_some.mp h
  cases h
  have := consumeVarint_shorter hn
  rw [List.length_drop]
  omega

theorem skipFlat_shorter (h : skipFlat type b = some r) : r.length ≤ b.length := by
  unfold skipFlat at h
  split at h
  · obtain ⟨p, hp, rfl⟩ := Option.map_eq_some_iff.mp h
    exact Nat.le_of_lt (consumeVarint_shorter hp)
  · split at h
    · obtain ⟨p, hp, rfl⟩ := Option.map_eq_some_iff.mp h
      exact Nat.le_of_lt (consumeBytes_shorter hp)
    · split at h
      · obtain ⟨_, h⟩ := Option.ite_none_right_eq_some.mp h
        cases h
        rw [List.length_drop]
        omega
      · split at h
        · obtain ⟨_, h⟩ := Option.ite_none_right_eq_some.mp h
          cases h
          rw [List.length_drop]
          omega
        · cases h

theorem skipGroup_shorter {rounds depth : Nat} (h : skipGroup rounds depth number b = some r) :
    r.length < b.length := by
  induction rounds generalizing depth number b r with
  | zero => cases h
  | succ rounds ih =>
    obtain ⟨⟨inner, type, rest⟩, ht, h⟩ := Option.bind_eq_some_iff.mp h
    have hlt := consumeTag_shorter ht
    dsimp only at h
    split at h
    · obtain ⟨_, h⟩ := Option.ite_none_right_eq_some.mp h
      cases h
      exact hlt
    · split at h
      · obtain ⟨_, h⟩ := Option.ite_none_left_eq_some.mp h
        obtain ⟨rest', h1, h2⟩ := Option.bind_eq_some_iff.mp h
        have := ih h1
        have := ih h2
        omega
      · obtain ⟨rest', h1, h2⟩ := Option.bind_eq_some_iff.mp h
        have := skipFlat_shorter h1
        have := ih h2
        omega

theorem consumeFieldValue_shorter (h : consumeFieldValue number type b = some r) : r.length ≤ b.length := by
  unfold consumeFieldValue at h
  split at h
  · exact Nat.le_of_lt (skipGroup_shorter h)
  · exact skipFlat_shorter h

theorem consumeField_shorter (h : consumeField b = some (f, r)) : r.length < b.length := by
  obtain ⟨⟨number, type, rest⟩, ht, h⟩ := Option.bind_eq_some_iff.mp h
  have hlt := consumeTag_shorter ht
  obtain ⟨_, h⟩ := Option.ite_none_left_eq_some.mp h
  split at h
  · obtain ⟨⟨v, r'⟩, hv, heq⟩ := Option.map_eq_some_iff.mp h
    cases heq
    have := consumeVarint_shorter hv
    omega
  · split at h
    · obtain ⟨⟨v, r'⟩, hv, heq⟩ := Option.map_eq_some_iff.mp h
      cases heq
      have := consumeBytes_shorter hv
      omega
    · obtain ⟨r', hv, heq⟩ := Option.map_eq_some_iff.mp h
      cases heq
      have := consumeFieldValue_shorter hv
      omega

def fields (b : Bytes) : Option (List Field) :=
  if b = [] then some []
  else match h : consumeField b with
    | none => none
    | some (f, r) =>
      have : r.length < b.length := consumeField_shorter h
      (fields r).map (f :: ·)
termination_by b.length

theorem fields_nil : fields [] = some [] := by
  rw [fields, if_pos rfl]

theorem fields_none (hb : b ≠ []) (h : consumeField b = none) : fields b = none := by
  rw [fields, if_neg hb]
  split
  · rfl
  · next heq =>
    rw [h] at heq
    cases heq

theorem fields_some (h : consumeField b = some (f, r)) : fields b = (fields r).map (f :: ·) := by
  have hb : b ≠ [] := by
    rintro rfl
    exact absurd (consumeField_shorter h) (Nat.not_lt_zero _)
  rw [fields, if_neg hb]
  split
  · next heq =>
    rw [h] at heq
    cases heq
  · next heq =>
    rw [h] at heq
    cases heq
    rfl

/-! ## Loops over fields

A parser that takes one field a round is a fold over the fields of the message. -/

section Loops

variable {σ : Type*}

/-- Take rounds until the bytes are used up. A round that takes no byte would never end. -/
def rounds (round : Bytes → σ → Option (σ × Bytes)) (b : Bytes) (s : σ) : Option σ :=
  if b = [] then some s
  else match round b s with
    | none => none
    | some (s', r) => if r.length < b.length then rounds round r s' else none
termination_by b.length

/-- A round that reads one field and steps on it. -/
def fieldRound (step : σ → Field → Option σ) (b : Bytes) (s : σ) : Option (σ × Bytes) :=
  (consumeField b).bind fun (f, r) => (step s f).map (·, r)

theorem rounds_eq {round : Bytes → σ → Option (σ × Bytes)} {step : σ → Field → Option σ}
    (h : ∀ b s, round b s = fieldRound step b s) (b : Bytes) (s : σ) :
    rounds round b s = (fields b).bind fun fs => fs.foldlM step s := by
  induction hn : b.length using Nat.strongRecOn generalizing b s with
  | ind n ih =>
    rw [rounds]
    by_cases hb : b = []
    · rw [if_pos hb, hb, fields_nil]
      rfl
    · rw [if_neg hb, h, fieldRound]
      cases hf : consumeField b with
      | none => rw [fields_none hb hf]; rfl
      | some p =>
        obtain ⟨f, r⟩ := p
        have hlt : r.length < b.length := consumeField_shorter hf
        rw [fields_some hf, Option.bind_some]
        dsimp only
        cases hs : step s f with
        | none => cases fields r <;> simp [hs]
        | some s' =>
          dsimp only [Option.map_some]
          rw [if_pos hlt, ih r.length (hn ▸ hlt) r s' rfl]
          cases fields r <;> simp [hs]

variable {step : σ → Field → Option σ} {s : σ}

theorem fieldRound_tag (b : Bytes) (s : σ) : fieldRound step b s = (consumeTag b).bind fun (number, type, r) =>
    if maximumNumber < number then none
    else if type = varintType then
      (consumeVarint r).bind fun (n, r) => (step s ⟨number, .varint n⟩).map (·, r)
    else if type = bytesType then
      (consumeBytes r).bind fun (v, r) => (step s ⟨number, .bytes v⟩).map (·, r)
    else (consumeFieldValue number type r).bind fun r => (step s ⟨number, .other type⟩).map (·, r) := by
  rw [fieldRound, consumeField]
  cases consumeTag b with
  | none => rfl
  | some p =>
    obtain ⟨number, type, r⟩ := p
    simp only [Option.bind_eq_bind, Option.bind_some]
    by_cases hn : maximumNumber < number
    · rw [if_pos hn, if_pos hn]
      rfl
    · rw [if_neg hn, if_neg hn]
      by_cases hv : type = varintType
      · rw [if_pos hv, if_pos hv, Option.bind_map]
        rfl
      · rw [if_neg hv, if_neg hv]
        by_cases hb : type = bytesType
        · rw [if_pos hb, if_pos hb, Option.bind_map]
          rfl
        · rw [if_neg hb, if_neg hb, Option.bind_map]
          rfl

theorem consumeFieldValue_varint : consumeFieldValue number varintType b = (consumeVarint b).map (·.2) := by
  rw [consumeFieldValue, if_neg (by decide), skipFlat, if_pos rfl]

theorem consumeFieldValue_bytes : consumeFieldValue number bytesType b = (consumeBytes b).map (·.2) := by
  rw [consumeFieldValue, if_neg (by decide), skipFlat, if_neg (by decide), if_pos rfl]

end Loops

/-! ## Writing -/

def putField (f : Field) : Bytes := match f.value with
  | .varint n => putVarint (f.number * 8 + varintType) ++ putVarint n
  | .bytes b => putVarint (f.number * 8 + bytesType) ++ (putVarint b.length ++ b)
  | .other _ => []

def putFields (fs : List Field) : Bytes := fs.flatMap putField

/-- A field that can be written: its number is a field's and its value fits. -/
def Field.Valid (f : Field) : Prop := 1 ≤ f.number ∧ f.number ≤ maximumNumber ∧ match f.value with
  | .varint n => n < 2 ^ 64
  | .bytes b => b.length < 2 ^ 64
  | .other _ => False

theorem length_putVarintIn (k n : Nat) : (putVarintIn k n).length ≤ k + 1 := by
  induction k generalizing n with
  | zero => exact Nat.le_refl 1
  | succ k ih =>
    rw [putVarintIn]
    split
    · rw [List.length_singleton]
      omega
    · exact Nat.succ_le_succ (ih _)

theorem length_putVarint (n : Nat) : (putVarint n).length ≤ 10 := length_putVarintIn 9 n

theorem consumeVarintIn_put {k : Nat} (hn : n < 2 * 128 ^ k) (rest : Bytes) :
    consumeVarintIn k (putVarintIn k n ++ rest) = some (n, rest) := by
  induction k generalizing n with
  | zero =>
    have hlt : n < 2 := by simpa using hn
    have hval : (UInt8.ofNat n).toNat = n := by
      rw [UInt8.toNat_ofNat']
      omega
    rw [putVarintIn, List.singleton_append, consumeVarintIn, hval, if_pos hlt]
  | succ k ih =>
    rw [putVarintIn]
    by_cases hsmall : n < 128
    · have hval : (UInt8.ofNat n).toNat = n := by
        rw [UInt8.toNat_ofNat']
        omega
      rw [if_pos hsmall, List.singleton_append, consumeVarintIn, hval, if_pos hsmall]
    · have hval : (UInt8.ofNat (n % 128 + 128)).toNat = n % 128 + 128 := by
        rw [UInt8.toNat_ofNat']
        omega
      have hdiv : n / 128 < 2 * 128 ^ k := by
        rw [Nat.div_lt_iff_lt_mul (by decide), Nat.mul_assoc, ← Nat.pow_succ]
        exact hn
      rw [if_neg hsmall, List.cons_append, consumeVarintIn, hval, if_neg (by omega), ih hdiv]
      simp only [Option.map_some, Option.some.injEq, Prod.mk.injEq, and_true]
      omega

theorem consumeVarint_put (hn : n < 2 ^ 64) (rest : Bytes) :
    consumeVarint (putVarint n ++ rest) = some (n, rest) :=
  consumeVarintIn_put (k := 9) (by simpa using hn) rest

theorem consumeBytes_put (hb : b.length < 2 ^ 64) (rest : Bytes) :
    consumeBytes (putVarint b.length ++ b ++ rest) = some (b, rest) := by
  rw [consumeBytes, List.append_assoc, consumeVarint_put hb]
  simp

theorem consumeTag_put (h1 : 1 ≤ number) (h2 : number ≤ maximumNumber) (ht : type < 8) (rest : Bytes) :
    consumeTag (putVarint (number * 8 + type) ++ rest) = some (number, type, rest) := by
  have hmax : maximumNumber = 2 ^ 29 - 1 := rfl
  have hdiv : (number * 8 + type) / 8 = number := by omega
  have hmod : (number * 8 + type) % 8 = type := by omega
  rw [consumeTag, consumeVarint_put (by omega)]
  simp only [Option.bind_eq_bind, Option.bind_some, hdiv, hmod]
  rw [if_neg (by omega)]

theorem consumeField_put (h : f.Valid) (rest : Bytes) :
    consumeField (putField f ++ rest) = some (f, rest) := by
  obtain ⟨number, value⟩ := f
  obtain ⟨h1, h2, hv⟩ := h
  have hmax : ¬ maximumNumber < number := Nat.not_lt_of_le h2
  cases value with
  | varint n =>
    rw [consumeField, putField, List.append_assoc, consumeTag_put h1 h2 (by decide)]
    simp only [Option.bind_eq_bind, Option.bind_some, if_neg hmax, if_true]
    rw [consumeVarint_put hv]
    rfl
  | bytes b =>
    rw [consumeField, putField, List.append_assoc, consumeTag_put h1 h2 (by decide)]
    simp only [Option.bind_eq_bind, Option.bind_some, if_neg hmax, if_true]
    rw [if_neg (by decide), consumeBytes_put hv]
    rfl
  | other type => exact hv.elim

theorem fields_put (h : f.Valid) (rest : Bytes) :
    fields (putField f ++ rest) = (fields rest).map (f :: ·) :=
  fields_some (consumeField_put h rest)

theorem fields_putFields {fs : List Field} (h : ∀ f ∈ fs, f.Valid) : fields (putFields fs) = some fs := by
  induction fs with
  | nil => exact fields_nil
  | cons f fs ih =>
    rw [putFields, List.flatMap_cons, fields_put (h f List.mem_cons_self)]
    rw [show fs.flatMap putField = putFields fs from rfl, ih fun g hg => h g (List.mem_cons_of_mem _ hg)]
    rfl

end Wire
