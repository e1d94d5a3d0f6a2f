import Veritas.Facts.SemanticKey

/-! Reading a semantic key back into its relation name and fields. -/
namespace Veritas

open FieldCode

structure KeyField where
  tag : KeyFieldTag
  value : String

structure DecodedKey where
  relationName : String
  cells : List KeyField

def isKnownTag (tag : Char) : Option KeyFieldTag :=
  [KeyFieldTag.id, .symbol, .number, .unsigned, .enum].find? (·.char = tag)

def digitValue (digit : Char) : ℕ := digit.toNat - '0'.toNat

/-- The largest `std::size_t`. -/
def sizeMax : ℕ := 2 ^ 64 - 1

/-- A field length; `none` when the next digit would overflow `std::size_t`. -/
def readLength (digits : List Char) : Option ℕ :=
  digits.foldlM (fun length digit =>
    if length > (sizeMax - digitValue digit) / 10 then none
    else some (length * 10 + digitValue digit)) 0

def decodeFields (encoded : List Char) : StatusOr (List KeyField) :=
  match encoded with
  | [] => pure []
  | tag :: rest =>
    match isKnownTag tag with
    | none => throw (.invalidArgument "semantic key has an unknown field tag")
    | some tag =>
      if rest.takeWhile Char.isDigit = [] then
        throw (.invalidArgument "semantic key field has no length")
      else match _hterminated : rest.dropWhile Char.isDigit with
        | ':' :: body =>
          match readLength (rest.takeWhile Char.isDigit) with
          | none => throw (.invalidArgument "semantic key field length overflows")
          | some length =>
            -- truncating instead would let a malformed key decode as a shorter valid one
            if length > body.length then
              throw (.invalidArgument "semantic key field length exceeds input")
            else do
              let fields ← decodeFields (body.drop length)
              return ⟨tag, String.ofList (body.take length)⟩ :: fields
        | _ => throw (.invalidArgument "semantic key field length is not terminated")
termination_by encoded.length
decreasing_by
  have hbody := (List.dropWhile_suffix Char.isDigit (l := rest)).length_le
  rw [_hterminated, List.length_cons] at hbody
  simp only [List.length_drop, List.length_cons]
  omega

/-- A decimal number in wrapping 64-bit arithmetic; `bad` answers any other character. -/
def readDecimal (bad : Status) (text : List Char) : StatusOr UInt64 :=
  text.foldlM (fun value digit =>
    if digit < '0' ∨ '9' < digit then throw bad
    else pure (value * 10 + UInt64.ofNat (digitValue digit))) 0

def decodeKey (encoded : List Char) : StatusOr DecodedKey :=
  if ¬ semanticKeyVersion.toList.isPrefixOf encoded then
    throw (.invalidArgument "semantic key has no version prefix")
  else do
    let fields ← decodeFields (encoded.drop semanticKeyVersion.length)
    match fields with
    | name :: arityField :: cells =>
      if name.tag ≠ .symbol ∨ arityField.tag ≠ .unsigned then
        throw (.invalidArgument "semantic key header is malformed")
      if arityField.value = "" then
        throw (.invalidArgument "semantic key arity is empty")
      let arity ← readDecimal (.invalidArgument "semantic key arity is not numeric")
        arityField.value.toList
      if cells.length ≠ arity.toNat then
        throw (.invalidArgument "semantic key arity does not match its cell count")
      return ⟨name.value, cells⟩
    | _ => throw (.invalidArgument "semantic key has no relation and arity")

theorem isKnownTag_char (tag : KeyFieldTag) : isKnownTag tag.char = some tag := by
  cases tag <;> decide

variable {n : ℕ} {fields : List (KeyFieldTag × String)}

theorem isDigit_of_mem_repr {c : Char} (h : c ∈ n.repr.toList) : c.isDigit = true := by
  rw [Nat.toList_repr] at h
  exact Nat.isDigit_of_mem_toDigits (by decide) (by decide) h

theorem ofDigitChars_repr (n : ℕ) : Nat.ofDigitChars 10 n.repr.toList 0 = n := by
  rw [Nat.toList_repr, Nat.ofDigitChars_ten_toDigits]

theorem repr_ne_nil (n : ℕ) : n.repr.toList ≠ [] := by
  rw [Nat.toList_repr]
  exact Nat.toDigits_ne_nil

/-- The decimal text of a 64-bit number is short. -/
theorem repr_length_le (h : n < 2 ^ 64) : n.repr.length ≤ sizeMax := by
  have hdigits : n.repr.length ≤ 20 := (Nat.length_repr_le_iff (by decide)).mpr (by omega)
  exact hdigits.trans (by decide)

/-- Reading more digits never makes the number smaller. -/
theorem le_ofDigitChars (digits : List Char) (start : ℕ) :
    start ≤ Nat.ofDigitChars 10 digits start := by
  induction digits generalizing start with
  | nil => exact Nat.le_refl _
  | cons digit digits ih =>
    rw [Nat.ofDigitChars_cons]
    have := ih (10 * start + (digit.toNat - '0'.toNat))
    omega

/-- A length that fits `std::size_t` is read without the overflow check firing. -/
theorem readLength_repr (h : n ≤ sizeMax) : readLength n.repr.toList = some n := by
  have hrun : ∀ (digits : List Char) (start : ℕ), Nat.ofDigitChars 10 digits start ≤ sizeMax →
      digits.foldlM (fun length digit =>
        if length > (sizeMax - digitValue digit) / 10 then none
        else some (length * 10 + digitValue digit)) start =
          some (Nat.ofDigitChars 10 digits start) := by
    intro digits
    induction digits with
    | nil =>
      intro start _
      rfl
    | cons digit digits ih =>
      intro start hle
      rw [Nat.ofDigitChars_cons] at hle ⊢
      have hnext := (le_ofDigitChars digits _).trans hle
      have hfits : ¬ start > (sizeMax - digitValue digit) / 10 := by
        unfold digitValue
        omega
      rw [List.foldlM_cons, if_neg hfits, Nat.mul_comm start 10]
      exact ih _ hle
  have hn : Nat.ofDigitChars 10 n.repr.toList 0 ≤ sizeMax := by rwa [ofDigitChars_repr]
  rw [readLength, hrun _ 0 hn, ofDigitChars_repr]

/-- A length that was read fits `std::size_t`. -/
theorem le_of_readLength {digits : List Char} {length : ℕ} (h : readLength digits = some length) :
    Nat.ofDigitChars 10 digits 0 = length ∧ length ≤ sizeMax := by
  have hrun : ∀ (digits : List Char) (start : ℕ), start ≤ sizeMax →
      digits.foldlM (fun length digit =>
        if length > (sizeMax - digitValue digit) / 10 then none
        else some (length * 10 + digitValue digit)) start = some length →
          Nat.ofDigitChars 10 digits start = length ∧ length ≤ sizeMax := by
    intro digits
    induction digits with
    | nil =>
      intro start hstart h
      obtain rfl : start = length := Option.some.inj h
      exact ⟨rfl, hstart⟩
    | cons digit digits ih =>
      intro start _ h
      rw [List.foldlM_cons] at h
      by_cases hover : start > (sizeMax - digitValue digit) / 10
      · rw [if_pos hover] at h
        exact absurd h nofun
      · rw [if_neg hover] at h
        rw [Nat.ofDigitChars_cons, Nat.mul_comm 10 start]
        have hsmall : digit.toNat < 2 ^ 32 := digit.val.toNat_lt
        refine ih _ ?_ h
        unfold digitValue at *
        unfold sizeMax at *
        omega
  exact hrun digits 0 (Nat.zero_le _) h

/-- Decimal text of any length is read modulo 2^64. -/
theorem readDecimal_repr (bad : Status) (n : ℕ) :
    readDecimal bad n.repr.toList = .ok (UInt64.ofNat n) := by
  have hrun : ∀ (digits : List Char), (∀ c ∈ digits, c.isDigit = true) → ∀ start : ℕ,
      digits.foldlM (fun (value : UInt64) digit =>
        if digit < '0' ∨ '9' < digit then throw bad
        else pure (value * 10 + UInt64.ofNat (digitValue digit))) (UInt64.ofNat start) =
          (.ok (UInt64.ofNat (Nat.ofDigitChars 10 digits start)) : StatusOr UInt64) := by
    intro digits
    induction digits with
    | nil =>
      intro _ start
      rfl
    | cons digit digits ih =>
      intro hdigits start
      have hdigit : ¬ (digit < '0' ∨ '9' < digit) := by
        have h := hdigits digit List.mem_cons_self
        simp only [Char.isDigit, ge_iff_le, Bool.and_eq_true, decide_eq_true_eq] at h
        rw [not_or, not_lt, not_lt]
        exact h
      rw [List.foldlM_cons, if_neg hdigit, Nat.ofDigitChars_cons]
      have hnext : UInt64.ofNat start * 10 + UInt64.ofNat (digitValue digit) =
          UInt64.ofNat (10 * start + (digit.toNat - '0'.toNat)) := by
        rw [UInt64.ofNat_add, UInt64.ofNat_mul, UInt64.mul_comm]
        rfl
      rw [hnext]
      exact ih (fun c hc => hdigits c (List.mem_cons_of_mem _ hc)) _
  have h := hrun n.repr.toList (fun c hc => isDigit_of_mem_repr hc) 0
  rwa [ofDigitChars_repr] at h

/-- The first field of a text, up to the reading of its length. -/
theorem decodeFields_first (tag : KeyFieldTag) (value rest : String) :
    decodeFields (encodeField tag value ++ rest).toList =
      match readLength value.length.repr.toList with
      | none => throw (.invalidArgument "semantic key field length overflows")
      | some length =>
        if length > (value.toList ++ rest.toList).length then
          throw (.invalidArgument "semantic key field length exceeds input")
        else do
          let fields ← decodeFields ((value.toList ++ rest.toList).drop length)
          return ⟨tag, String.ofList ((value.toList ++ rest.toList).take length)⟩ :: fields := by
  have htext : (encodeField tag value ++ rest).toList =
      tag.char :: (value.length.repr.toList ++ ':' :: (value.toList ++ rest.toList)) := by
    simp [encodeField, field]
  have hdigits : ∀ c ∈ value.length.repr.toList, c.isDigit = true :=
    fun c hc => isDigit_of_mem_repr hc
  have htake : (value.length.repr.toList ++ ':' :: (value.toList ++ rest.toList)).takeWhile
      Char.isDigit = value.length.repr.toList := by
    rw [List.takeWhile_append_of_pos hdigits, List.takeWhile_cons_of_neg (by decide),
      List.append_nil]
  have hdrop : (value.length.repr.toList ++ ':' :: (value.toList ++ rest.toList)).dropWhile
      Char.isDigit = ':' :: (value.toList ++ rest.toList) := by
    rw [List.dropWhile_append_of_pos hdigits, List.dropWhile_cons_of_neg (by decide)]
  rw [htext, decodeFields, isKnownTag_char]
  simp only [htake, repr_ne_nil, if_false]
  split
  · rename_i body hbody
    rw [hdrop] at hbody
    obtain rfl : value.toList ++ rest.toList = body := (List.cons.inj hbody).2
    rfl
  · rename_i hbody
    exact absurd hdrop (hbody _)

theorem decodeFields_encodeField {tag : KeyFieldTag} {value rest : String}
    (h : value.length ≤ sizeMax) :
    decodeFields (encodeField tag value ++ rest).toList =
      (⟨tag, value⟩ :: ·) <$> decodeFields rest.toList := by
  have hlength : value.toList.length = value.length := String.length_toList
  have hle : ¬ value.length > (value.toList ++ rest.toList).length := by
    rw [List.length_append, hlength]
    omega
  have hsplit : (value.toList ++ rest.toList).take value.length = value.toList ∧
      (value.toList ++ rest.toList).drop value.length = rest.toList := by
    exact ⟨List.take_left, List.drop_left⟩
  rw [decodeFields_first, readLength_repr h]
  simp only [if_neg hle, hsplit, String.ofList_toList]
  rfl

theorem decodeFields_encodeFields (h : ∀ f ∈ fields, f.2.length ≤ sizeMax) :
    decodeFields (encodeFields fields).toList = .ok (fields.map fun f => ⟨f.1, f.2⟩) := by
  induction fields with
  | nil =>
    rw [encodeFields, concat, String.toList_empty, decodeFields]
    rfl
  | cons f fields ih =>
    have hrest := ih fun g hg => h g (List.mem_cons_of_mem _ hg)
    have hcons : encodeFields (f :: fields) = encodeField f.1 f.2 ++ encodeFields fields := rfl
    rw [hcons, decodeFields_encodeField (h f List.mem_cons_self), hrest]
    rfl

/-- A key built from a short enough name, a field count and fields is read back as such. -/
theorem decodeKey_encode {name : String} (hname : name.length ≤ sizeMax)
    (hfields : ∀ f ∈ fields, f.2.length ≤ sizeMax) (hcount : fields.length < 2 ^ 64) :
    decodeKey (encodeKeyHeader name fields.length ++ encodeFields fields).toList =
      .ok ⟨name, fields.map fun f => ⟨f.1, f.2⟩⟩ := by
  have hkey : (encodeKeyHeader name fields.length ++ encodeFields fields).toList =
      semanticKeyVersion.toList ++ (encodeField .symbol name ++
        (encodeField .unsigned fields.length.repr ++ encodeFields fields)).toList := by
    simp [encodeKeyHeader]
  have harity : fields.length.repr.length ≤ sizeMax := repr_length_le hcount
  have hdrop : (semanticKeyVersion.toList ++ (encodeField .symbol name ++
      (encodeField .unsigned fields.length.repr ++ encodeFields fields)).toList).drop
        semanticKeyVersion.length = (encodeField .symbol name ++
          (encodeField .unsigned fields.length.repr ++ encodeFields fields)).toList := by
    rw [← String.length_toList, List.drop_left]
  have hempty : ¬ fields.length.repr = "" := by
    intro h
    exact repr_ne_nil fields.length (by rw [h]; rfl)
  rw [hkey, decodeKey, if_neg (by simp), hdrop, decodeFields_encodeField hname,
    decodeFields_encodeField harity, decodeFields_encodeFields hfields]
  have hcells : ¬ (fields.map fun f => (⟨f.1, f.2⟩ : KeyField)).length ≠
      (UInt64.ofNat fields.length).toNat := by
    rw [List.length_map, UInt64.toNat_ofNat_of_lt' hcount]
    exact fun h => h rfl
  simp only [Functor.map, Except.map, bind, Except.bind, readDecimal_repr, if_neg hempty,
    if_neg hcells]
  rfl

end Veritas
