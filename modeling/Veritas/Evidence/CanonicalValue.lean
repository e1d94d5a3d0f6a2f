import Veritas.Facts.Preimage

/-! Canonical value trees and their tagged, length-prefixed bytes. -/
namespace Veritas

open String

inductive PathRootKind
  | repository | generated | external | toolchain
  deriving DecidableEq

def PathRootKind.ordinal (kind : PathRootKind) : ℕ := kind.ctorIdx

theorem PathRootKind.ordinal_injective : Function.Injective PathRootKind.ordinal :=
  Function.LeftInverse.injective (g := PathRootKind.ofNat) PathRootKind.ofNat_ctorIdx

theorem PathRootKind.ordinal_lt (kind : PathRootKind) : kind.ordinal < 256 := by
  cases kind <;> decide

/-- The entries of an object are listed by key, as the map iterates them. -/
inductive CanonicalValue
  | null
  | bool (value : Bool)
  | int (value : Int64)
  | string (value : String)
  | array (items : List CanonicalValue)
  | object (entries : List (String × CanonicalValue))
  | path (rootKind : PathRootKind) (rootId relativePath : String)

def encodeCount (count : ℕ) : String := encodeU64 (UInt64.ofNat count)

mutual

/-- `core::CanonicalEncode`, which has no failing case. -/
def CanonicalValue.encode : CanonicalValue → String
  | .null => preimageByte 0
  | .bool value => preimageByte 1 ++ preimageByte value.toNat
  | .int value => preimageByte 2 ++ encodeU64 value.toUInt64
  | .string value => preimageByte 3 ++ lenPrefixed value
  | .array items => preimageByte 4 ++ (encodeCount items.length ++ encodeItems items)
  | .object entries => preimageByte 5 ++ (encodeCount entries.length ++ encodeEntries entries)
  | .path rootKind rootId relativePath =>
    preimageByte 6 ++ (preimageByte rootKind.ordinal ++ (lenPrefixed rootId ++
      lenPrefixed relativePath))

def encodeItems : List CanonicalValue → String
  | [] => ""
  | item :: items => item.encode ++ encodeItems items

def encodeEntries : List (String × CanonicalValue) → String
  | [] => ""
  | (key, value) :: entries => lenPrefixed key ++ (value.encode ++ encodeEntries entries)

end

mutual

/-- The number of bytes of the encoding. -/
def CanonicalValue.size : CanonicalValue → ℕ
  | .null => 1
  | .bool _ => 2
  | .int _ => 9
  | .string value => 9 + value.length
  | .array items => 9 + sizeItems items
  | .object entries => 9 + sizeEntries entries
  | .path _ rootId relativePath => 18 + (rootId.length + relativePath.length)

def sizeItems : List CanonicalValue → ℕ
  | [] => 0
  | item :: items => item.size + sizeItems items

def sizeEntries : List (String × CanonicalValue) → ℕ
  | [] => 0
  | (key, value) :: entries => 8 + key.length + (value.size + sizeEntries entries)

end

theorem length_preimageByte (value : ℕ) : (preimageByte value).length = 1 := String.length_singleton

theorem length_lenPrefixed (text : String) : (lenPrefixed text).length = 8 + text.length := by
  rw [lenPrefixed, length_append, length_encodeU64]

open CanonicalValue

mutual

theorem CanonicalValue.length_encode : (value : CanonicalValue) → value.encode.length = value.size
  | .null => by simp [encode, size, length_preimageByte]
  | .bool _ => by simp [encode, size, length_preimageByte]
  | .int _ => by simp [encode, size, length_preimageByte, length_encodeU64]
  | .string _ => by
    simp only [encode, size, length_append, length_preimageByte, length_lenPrefixed]
    omega
  | .array items => by
    have hitems := length_encodeItems items
    simp only [encode, size, encodeCount, length_append, length_preimageByte, length_encodeU64]
    omega
  | .object entries => by
    have hentries := length_encodeEntries entries
    simp only [encode, size, encodeCount, length_append, length_preimageByte, length_encodeU64]
    omega
  | .path .. => by
    simp only [encode, size, length_append, length_preimageByte, length_lenPrefixed]
    omega

theorem length_encodeItems : (items : List CanonicalValue) →
    (encodeItems items).length = sizeItems items
  | [] => rfl
  | item :: items => by
    rw [encodeItems, sizeItems, String.length_append, item.length_encode, length_encodeItems items]

theorem length_encodeEntries : (entries : List (String × CanonicalValue)) →
    (encodeEntries entries).length = sizeEntries entries
  | [] => rfl
  | (key, value) :: entries => by
    rw [encodeEntries, sizeEntries, String.length_append, String.length_append, length_lenPrefixed,
      value.length_encode, length_encodeEntries entries]

end

/-- The tag that opens an encoding. -/
def CanonicalValue.tag : CanonicalValue → ℕ
  | .null => 0
  | .bool _ => 1
  | .int _ => 2
  | .string _ => 3
  | .array _ => 4
  | .object _ => 5
  | .path .. => 6

/-- What stands behind the tag, over the codes of a text, an array and an object. -/
def CanonicalValue.payload (text : String → String) (items : List CanonicalValue → String)
    (entries : List (String × CanonicalValue) → String) : CanonicalValue → String
  | .null => ""
  | .bool value => preimageByte value.toNat
  | .int value => encodeU64 value.toUInt64
  | .string value => text value
  | .array values => items values
  | .object values => entries values
  | .path rootKind rootId relativePath =>
    preimageByte rootKind.ordinal ++ (text rootId ++ text relativePath)

theorem CanonicalValue.encode_eq (value : CanonicalValue) : value.encode =
    preimageByte value.tag ++ value.payload lenPrefixed
      (fun items => encodeCount items.length ++ encodeItems items)
      fun entries => encodeCount entries.length ++ encodeEntries entries := by
  cases value <;> simp [encode, tag, payload]

theorem CanonicalValue.tag_lt (value : CanonicalValue) : value.tag < 256 := by
  cases value <;> simp [tag]

theorem CanonicalValue.encode_length_pos (value : CanonicalValue) : 0 < value.encode.length := by
  rw [value.encode_eq, length_append, length_preimageByte]
  omega

theorem encodeCount_append_inj {m n : ℕ} (hm : m < 2 ^ 64) (hn : n < 2 ^ 64) {r r' : String}
    (h : encodeCount m ++ r = encodeCount n ++ r') : m = n ∧ r = r' := by
  obtain ⟨hcount, hr⟩ := encodeU64_prefixFree _ _ _ _ h
  have hcount := congrArg UInt64.toNat hcount
  rw [UInt64.toNat_ofNat_of_lt' hm, UInt64.toNat_ofNat_of_lt' hn] at hcount
  exact ⟨hcount, hr⟩

/-- A text field is read back from a text short enough for its length to be exact. -/
theorem lenPrefixed_inj_of_bound {a b r r' : String} (h : lenPrefixed a ++ r = lenPrefixed b ++ r')
    (hbound : (lenPrefixed a ++ r).length < 2 ^ 64) : a = b ∧ r = r' := by
  have ha := length_lenPrefixed a
  have hb := length_lenPrefixed b
  have hbound' := hbound
  rw [h] at hbound'
  rw [length_append] at hbound hbound'
  exact lenPrefixed_append_inj (by omega) (by omega) h

/-- The code of a value names it and ends where it ends, in a text that fits. -/
def Parses {α : Type} (Fits : String → Prop) (code : α → String) (a : α) : Prop :=
  ∀ ⦃b : α⦄ ⦃r r' : String⦄, code a ++ r = code b ++ r' → Fits (code a ++ r) → a = b ∧ r = r'

/-- A code of value trees: a tag, and a payload whose texts and lists are read back. -/
structure TreeCode where
  Fits : String → Prop
  suffix : ∀ {a r}, Fits (a ++ r) → Fits r
  code : CanonicalValue → String
  text : String → String
  items : List CanonicalValue → String
  entries : List (String × CanonicalValue) → String
  code_eq : ∀ v, code v = preimageByte v.tag ++ v.payload text items entries
  reads_text : ∀ a, Parses Fits text a
  reads_items : ∀ {as}, (∀ a ∈ as, Parses Fits code a) → Parses Fits items as
  reads_entries : ∀ {es}, (∀ e ∈ es, Parses Fits (fun e => text e.1 ++ code e.2) e) →
    Parses Fits entries es

theorem TreeCode.reads_entry (c : TreeCode) {e : String × CanonicalValue}
    (he : Parses c.Fits c.code e.2) : Parses c.Fits (fun e => c.text e.1 ++ c.code e.2) e := by
  intro b r r' h hfits
  rw [append_assoc, append_assoc] at h
  rw [append_assoc] at hfits
  obtain ⟨hkey, h⟩ := c.reads_text e.1 h hfits
  obtain ⟨hvalue, hr⟩ := he h (c.suffix hfits)
  exact ⟨Prod.ext hkey hvalue, hr⟩

/-- The children of a node, if there are any, are read back by their own codes. -/
theorem TreeCode.reads (c : TreeCode) (v : CanonicalValue) : Parses c.Fits c.code v := by
  refine sizeOfWFRel.wf.induction (C := Parses c.Fits c.code) v fun v ih => ?_
  intro v' r r' hcode hfits
  rw [c.code_eq, c.code_eq, append_assoc, append_assoc] at hcode
  rw [c.code_eq, append_assoc] at hfits
  obtain ⟨htag, h⟩ := preimageByte_append_inj v.tag_lt v'.tag_lt hcode
  have hleft := c.suffix hfits
  cases v <;> cases v'
  case null.null => exact ⟨rfl, by simpa [payload] using h⟩
  case bool.bool =>
    obtain ⟨hvalue, hr⟩ := boolByte_prefixFree _ _ _ _ h
    exact ⟨by rw [hvalue], hr⟩
  case int.int =>
    obtain ⟨hvalue, hr⟩ := encodeInt64_prefixFree _ _ _ _ h
    exact ⟨by rw [hvalue], hr⟩
  case string.string =>
    obtain ⟨hvalue, hr⟩ := c.reads_text _ h hleft
    exact ⟨by rw [hvalue], hr⟩
  case array.array =>
    obtain ⟨hvalues, hr⟩ := c.reads_items (fun a ha => ih a (by decreasing_tactic)) h hleft
    exact ⟨by rw [hvalues], hr⟩
  case object.object es _ =>
    have hchild : ∀ e ∈ es, Parses c.Fits c.code e.2 := by
      rintro ⟨key, value⟩ he
      have hlt := List.sizeOf_lt_of_mem he
      refine ih value (show sizeOf value < sizeOf (object es) from ?_)
      simp only [Prod.mk.sizeOf_spec, object.sizeOf_spec] at hlt ⊢
      omega
    obtain ⟨hvalues, hr⟩ := c.reads_entries (fun e he => c.reads_entry (hchild e he)) h hleft
    exact ⟨by rw [hvalues], hr⟩
  case path.path kind _ _ kind' _ _ =>
    simp only [payload, append_assoc] at h hleft
    obtain ⟨hkind, h⟩ := preimageByte_append_inj kind.ordinal_lt kind'.ordinal_lt h
    obtain ⟨hroot, h⟩ := c.reads_text _ h (c.suffix hleft)
    obtain ⟨hpath, hr⟩ := c.reads_text _ h (c.suffix (c.suffix hleft))
    exact ⟨by rw [PathRootKind.ordinal_injective hkind, hroot, hpath], hr⟩
  all_goals cases htag

section Counted

variable {α : Type} {elem : α → String} {text : List α → String} {as bs : List α} {r r' : String}
  (hcons : ∀ a as, text (a :: as) = elem a ++ text as)
include hcons

theorem length_le_text (hpos : ∀ a, 0 < (elem a).length) (as : List α) :
    as.length ≤ (text as).length := by
  induction as with
  | nil => simp
  | cons a as ih =>
    have hpos := hpos a
    rw [hcons, length_append, List.length_cons]
    omega

variable (hnil : text [] = "") (has : ∀ a ∈ as, Parses (·.length < 2 ^ 64) elem a)
include hnil has

theorem text_append_inj (hlen : as.length = bs.length)
    (h : text as ++ r = text bs ++ r') (hbound : (text as ++ r).length < 2 ^ 64) :
    as = bs ∧ r = r' := by
  induction as generalizing bs with
  | nil =>
    cases bs with
    | nil => exact ⟨rfl, by simpa [hnil] using h⟩
    | cons b bs => cases hlen
  | cons a as ih =>
    cases bs with
    | nil => cases hlen
    | cons b bs =>
      rw [hcons, hcons, append_assoc, append_assoc] at h
      rw [hcons, append_assoc] at hbound
      obtain ⟨hhead, h⟩ := has a List.mem_cons_self h hbound
      rw [length_append] at hbound
      obtain ⟨htail, hr⟩ := ih (fun a ha => has a (List.mem_cons_of_mem _ ha)) (Nat.succ.inj hlen) h
        (by omega)
      exact ⟨by rw [hhead, htail], hr⟩

/-- A list behind its length is read back if its elements are. -/
theorem counted_append_inj (hpos : ∀ a, 0 < (elem a).length)
    (h : encodeCount as.length ++ text as ++ r = encodeCount bs.length ++ text bs ++ r')
    (hbound : (encodeCount as.length ++ text as ++ r).length < 2 ^ 64) : as = bs ∧ r = r' := by
  have hbound' := hbound
  rw [h] at hbound'
  have hle := length_le_text hcons hpos as
  have hle' := length_le_text hcons hpos bs
  rw [append_assoc, append_assoc] at h
  simp only [length_append] at hbound hbound'
  obtain ⟨hcount, h⟩ := encodeCount_append_inj (by omega) (by omega) h
  exact text_append_inj hcons hnil has hcount h (by
    rw [length_append]
    omega)

end Counted

def encodeTree : TreeCode where
  Fits bytes := bytes.length < 2 ^ 64
  suffix h := by
    rw [length_append] at h
    omega
  code := CanonicalValue.encode
  text := lenPrefixed
  items items := encodeCount items.length ++ encodeItems items
  entries entries := encodeCount entries.length ++ encodeEntries entries
  code_eq := encode_eq
  reads_text _ _ _ _ := lenPrefixed_inj_of_bound
  reads_items has _ _ _ h hbound := counted_append_inj (fun _ _ => rfl) rfl has
    encode_length_pos h hbound
  reads_entries has _ _ _ h hbound := counted_append_inj
    (fun _ _ => by rw [encodeEntries, append_assoc]) rfl has (fun e => by
      have hpos := e.2.encode_length_pos
      rw [length_append]
      omega) h hbound

/-- Two values with the same bytes are the same value. -/
theorem CanonicalValue.encode_inj {v v' : CanonicalValue} (h : v.encode = v'.encode)
    (hbound : v.encode.length < 2 ^ 64) : v = v' := by
  have happend : v.encode ++ "" = v'.encode ++ "" := by rw [h]
  exact (encodeTree.reads v happend (by rwa [append_empty])).1

end Veritas
