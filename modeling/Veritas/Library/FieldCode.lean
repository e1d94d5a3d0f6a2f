import Mathlib.Data.List.Forall2
import Mathlib.Data.String.Basic

/-! Length-prefixed text fields: a decimal length, a separator, then the raw value. -/
namespace FieldCode

open Function List

/-- The decimal length of a value, a colon, and the value itself. -/
def field (value : String) : String := value.length.repr ++ ":" ++ value

/-- No encoding is a proper prefix of another, and the rest of the text is recovered too. -/
def PrefixFree {α : Type*} (encode : α → String) : Prop :=
  ∀ a b r r', encode a ++ r = encode b ++ r' → a = b ∧ r = r'

theorem repr_injective : Injective Nat.repr := by
  intro a b h
  have hd : Nat.toDigits 10 a = Nat.toDigits 10 b := by
    rw [← Nat.toList_repr, ← Nat.toList_repr, h]
  rw [← Nat.ofDigitChars_ten_toDigits (n := a), hd, Nat.ofDigitChars_ten_toDigits]

variable {c sep : Char} {n : ℕ}

theorem notMem_repr (hc : c.isDigit = false) (n : ℕ) : c ∉ n.repr.toList := by
  rw [Nat.toList_repr]
  intro h
  have hdigit := Nat.isDigit_of_mem_toDigits (by decide) (by decide) h
  rw [hc] at hdigit
  exact absurd hdigit (by decide)

variable {α β : Type*}

/-- Two lists cut at their first separator agree on both sides of it. -/
theorem append_cons_inj {sep : α} {xs ys r r' : List α} (hx : sep ∉ xs)
    (hy : sep ∉ ys) (h : xs ++ sep :: r = ys ++ sep :: r') : xs = ys ∧ r = r' := by
  rcases append_eq_append_iff.mp h with ⟨zs, rfl, hz⟩ | ⟨zs, rfl, hz⟩
  · cases zs with
    | nil => simpa using hz
    | cons z zs => simp [(cons.inj hz).1] at hy
  · cases zs with
    | nil => simpa using hz.symm
    | cons z zs => simp [(cons.inj hz).1] at hx

/-- A pair encoded part by part is prefix free when both parts are. -/
theorem PrefixFree.prod {f : α → String} {g : β → String}
    (hf : PrefixFree f) (hg : PrefixFree g) : PrefixFree fun p : α × β => f p.1 ++ g p.2 := by
  rintro ⟨a, b⟩ ⟨a', b'⟩ r r' h
  obtain ⟨rfl, htail⟩ :=
    hf a a' (g b ++ r) (g b' ++ r') (by simpa [String.append_assoc] using h)
  obtain ⟨rfl, hr⟩ := hg b b' r r' htail
  exact ⟨rfl, hr⟩

/-- Texts cut after equally many characters agree on both sides of the cut. -/
theorem append_inj_of_length {a b r r' : String} (h : a ++ r = b ++ r') (hlen : a.length = b.length) :
    a = b ∧ r = r' := by
  have hlist := congrArg String.toList h
  rw [String.toList_append, String.toList_append] at hlist
  obtain ⟨hword, hr⟩ := append_inj hlist (by rwa [String.length_toList, String.length_toList])
  exact ⟨String.toList_inj.mp hword, String.toList_inj.mp hr⟩

variable {encode : α → String}

/-- Code words of one length are prefix free as soon as they differ. -/
theorem prefixFree_of_length (hlen : ∀ a, (encode a).length = n)
    (hinj : Injective encode) : PrefixFree encode := by
  intro a b r r' h
  obtain ⟨hword, hr⟩ := append_inj_of_length h ((hlen a).trans (hlen b).symm)
  exact ⟨hinj hword, hr⟩

/-- A single leading character, such as a type tag, keeps a code prefix free. -/
theorem singleton_prefixFree : PrefixFree String.singleton :=
  prefixFree_of_length (fun _ => String.length_singleton) fun _ _ => String.singleton_inj.mp

/-- Words that never contain the separator are prefix free once it closes them. -/
theorem terminated_prefixFree (hinj : Injective encode)
    (hsep : ∀ a, sep ∉ (encode a).toList) :
    PrefixFree fun a => encode a ++ String.singleton sep := by
  intro a b r r' h
  have hlist := congrArg String.toList h
  simp only [String.toList_append, String.toList_singleton, append_assoc, cons_append,
    nil_append] at hlist
  obtain ⟨hword, hr⟩ := append_cons_inj (hsep a) (hsep b) hlist
  exact ⟨hinj (String.toList_inj.mp hword), String.toList_inj.mp hr⟩

theorem field_prefixFree : PrefixFree field := by
  intro a b r r' h
  obtain ⟨hlen, hrest⟩ := terminated_prefixFree repr_injective
    (notMem_repr (c := ':') (by decide)) a.length b.length (a ++ r) (b ++ r')
    (by simpa [field, String.append_assoc] using h)
  exact append_inj_of_length hrest hlen

theorem intRepr_injective : Injective Int.repr := by
  have hsign : ∀ n m : ℕ, n.repr ≠ "-" ++ m.repr := by
    intro n m h
    have hmem : '-' ∈ n.repr.toList := by simp [h]
    exact notMem_repr (by decide) n hmem
  intro a b h
  cases a with
  | ofNat m =>
    cases b with
    | ofNat n => rw [repr_injective h]
    | negSucc n => exact absurd h (hsign _ _)
  | negSucc m =>
    cases b with
    | ofNat n => exact absurd h.symm (hsign _ _)
    | negSucc n =>
      have hdigits := repr_injective ((String.append_right_inj _).mp h)
      rw [Nat.succ.inj hdigits]

theorem notMem_intRepr (hc : c.isDigit = false) (hsign : c ≠ '-') (n : ℤ) : c ∉ n.repr.toList := by
  cases n with
  | ofNat m => exact notMem_repr hc m
  | negSucc m =>
    intro h
    rcases mem_append.mp (String.toList_append ▸ h) with h | h
    · exact hsign (mem_singleton.mp h)
    · exact notMem_repr hc _ h

/-- Numbers below a power of the base are told apart by their digits. -/
theorem eq_of_digits (base n : ℕ) {v w : ℕ} (hv : v < base ^ n) (hw : w < base ^ n)
    (h : ∀ i < n, v / base ^ i % base = w / base ^ i % base) : v = w := by
  have hmod : ∀ k ≤ n, v % base ^ k = w % base ^ k := by
    intro k
    induction k with
    | zero =>
      intro _
      simp [Nat.mod_one]
    | succ k ih =>
      intro hk
      rw [Nat.mod_pow_succ, Nat.mod_pow_succ, ih (by omega), h k (by omega)]
  have hlast := hmod n le_rfl
  rwa [Nat.mod_eq_of_lt hv, Nat.mod_eq_of_lt hw] at hlast

/-- The concatenated encodings of a list. -/
def concat {α : Type*} (encode : α → String) : List α → String
  | [] => ""
  | a :: as => encode a ++ concat encode as

variable {as bs : List α}

/-- Equally long lists of prefix-free codes are recovered element by element. -/
theorem concat_append_inj (hf : PrefixFree encode) {r r' : String} (hlen : as.length = bs.length)
    (h : concat encode as ++ r = concat encode bs ++ r') : as = bs ∧ r = r' := by
  induction as generalizing bs with
  | nil =>
    cases bs with
    | nil => exact ⟨rfl, by simpa [concat] using h⟩
    | cons b bs => simp at hlen
  | cons a as ih =>
    cases bs with
    | nil => simp at hlen
    | cons b bs =>
      obtain ⟨rfl, htail⟩ := hf a b (concat encode as ++ r) (concat encode bs ++ r')
        (by simpa [concat, String.append_assoc] using h)
      obtain ⟨rfl, hr⟩ := ih (by simpa using hlen) htail
      exact ⟨rfl, hr⟩

/-- With no empty code word the lists need not be equally long, if nothing follows them. -/
theorem concat_inj (hf : PrefixFree encode)
    (hne : ∀ a, encode a ≠ "") (h : concat encode as = concat encode bs) :
    as = bs := by
  induction as generalizing bs with
  | nil =>
    cases bs with
    | nil => rfl
    | cons b bs => exact absurd (String.append_eq_empty_iff.mp h.symm).1 (hne b)
  | cons a as ih =>
    cases bs with
    | nil => exact absurd (String.append_eq_empty_iff.mp h).1 (hne a)
    | cons b bs =>
      obtain ⟨rfl, htail⟩ := hf a b _ _ h
      rw [ih htail]

/-- A word and the separator that closes it. -/
def terminated (sep : Char) (word : String) : String := word ++ String.singleton sep

theorem join_inj {as bs : List String} (ha : ∀ a ∈ as, sep ∉ a.toList)
    (hb : ∀ b ∈ bs, sep ∉ b.toList) (hne : as ≠ []) (hne' : bs ≠ [])
    (h : (String.singleton sep).intercalate as = (String.singleton sep).intercalate bs) :
    as = bs := by
  have hchars := congrArg String.toList h
  simp only [String.toList_intercalate, String.toList_singleton] at hchars
  have hsplit := congrArg (List.splitOn sep) hchars
  rw [splitOn_intercalate _ (by simpa using ha) (by simpa using hne),
    splitOn_intercalate _ (by simpa using hb) (by simpa using hne')] at hsplit
  exact map_injective_iff.mpr (fun _ _ => String.toList_inj.mp) hsplit

theorem concat_terminated_append (as : List String) (r : String) :
    concat (terminated sep) as ++ r = (String.singleton sep).intercalate (as ++ [r]) := by
  induction as with
  | nil => simp [concat]
  | cons a as ih =>
    rw [concat, String.append_assoc, ih, cons_append, String.intercalate_cons_of_ne_nil (by simp)]
    simp [terminated]

/-- Closed words are recovered whatever their number, with what follows them, when the separator
occurs in none of them nor in what follows. -/
theorem concat_terminated_append_inj {as bs : List String} {r r' : String}
    (has : ∀ a ∈ as, sep ∉ a.toList) (hbs : ∀ b ∈ bs, sep ∉ b.toList) (hr : sep ∉ r.toList)
    (hr' : sep ∉ r'.toList) (h : concat (terminated sep) as ++ r = concat (terminated sep) bs ++ r') :
    as = bs ∧ r = r' := by
  rw [concat_terminated_append, concat_terminated_append] at h
  have hjoin := join_inj (by simpa [or_imp, forall_and] using ⟨has, hr⟩)
    (by simpa [or_imp, forall_and] using ⟨hbs, hr'⟩) (by simp) (by simp) h
  obtain ⟨hwords, hrest⟩ := append_inj' hjoin rfl
  exact ⟨hwords, (cons.inj hrest).1⟩

/-- Words written one after the other are recovered from their lengths. -/
theorem concat_id_inj {as bs : List String} (hlen : as.map String.length = bs.map String.length)
    (h : concat id as = concat id bs) : as = bs := by
  induction as generalizing bs with
  | nil =>
    cases bs with
    | nil => rfl
    | cons b bs => simp at hlen
  | cons a as ih =>
    cases bs with
    | nil => simp at hlen
    | cons b bs =>
      obtain ⟨hhead, htail⟩ := cons.inj hlen
      obtain ⟨hword, hrest⟩ := append_inj_of_length h hhead
      rw [ih htail hrest, show a = b from hword]

/-- Lists cut into blocks of matching lengths agree block by block. -/
theorem forall₂_of_flatMap_eq {R : α → α → Prop} {block : α → List β}
    (hlen : ∀ a b, R a b → (block a).length = (block b).length)
    (hR : List.Forall₂ R as bs) (h : as.flatMap block = bs.flatMap block) :
    List.Forall₂ (fun a b => R a b ∧ block a = block b) as bs := by
  induction hR with
  | nil => exact .nil
  | cons hhead _ ih =>
    obtain ⟨hblock, hrest⟩ := append_inj h (hlen _ _ hhead)
    exact .cons ⟨hhead, hblock⟩ (ih hrest)

/-- Blocks that are told apart by what is known of them are recovered with what follows them. -/
theorem flatMap_append_inj {R : α → α → Prop} {block : α → List β}
    (hblock : ∀ a b r r', R a b → block a ++ r = block b ++ r' → a = b ∧ r = r')
    {r r' : List β} (hR : List.Forall₂ R as bs)
    (h : as.flatMap block ++ r = bs.flatMap block ++ r') : as = bs ∧ r = r' := by
  induction hR with
  | nil => exact ⟨rfl, h⟩
  | cons hab _ ih =>
    rw [flatMap_cons, flatMap_cons, append_assoc, append_assoc] at h
    obtain ⟨rfl, htail⟩ := hblock _ _ _ _ hab h
    obtain ⟨rfl, hr⟩ := ih htail
    exact ⟨rfl, hr⟩

/-- Blocks of one positive length agree one by one, also when their numbers are not known. -/
theorem forall₂_of_flatMap_eq_of_length {block : α → List β} (hn : 0 < n)
    (hlen : ∀ a, (block a).length = n) (h : as.flatMap block = bs.flatMap block) :
    List.Forall₂ (fun a b => block a = block b) as bs := by
  have hlength := congrArg List.length h
  simp only [length_flatMap, hlen, map_const', sum_replicate_nat] at hlength
  have hcut := forall₂_of_flatMap_eq (R := fun _ _ => True)
    (fun a b _ => (hlen a).trans (hlen b).symm)
    (forall₂_iff_zip.mpr ⟨Nat.eq_of_mul_eq_mul_right hn hlength, fun _ => trivial⟩) h
  exact hcut.imp fun _ _ hab => hab.2

end FieldCode
