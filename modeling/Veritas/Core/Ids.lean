import Mathlib.Data.List.Forall2
import Mathlib.Data.List.TakeDrop
import Mathlib.Data.Prod.Lex
import Mathlib.Data.String.Basic
import Veritas.Library.Ordered

/-! Error statuses and stable identifiers. A `std::string` is read one `Char` per byte. -/
namespace Veritas

open Function List String

inductive StatusCode
  | invalidArgument | notFound | failedPrecondition | internal | deadlineExceeded
  deriving DecidableEq

/-- A non-ok status; success is the `ok` side of `StatusOr`. -/
structure Status where
  code : StatusCode
  message : String
  deriving DecidableEq

abbrev StatusOr (α : Type) := Except Status α

variable {α β : Type}

/-- What a successful sequence of two fallible steps went through. -/
theorem StatusOr.bind_eq_ok {x : StatusOr α} {f : α → StatusOr β} {b : β} :
    (x >>= f) = .ok b ↔ ∃ a, x = .ok a ∧ f a = .ok b := by
  cases x with
  | error e => simp [bind, Except.bind]
  | ok a => simp [bind, Except.bind]

theorem StatusOr.bind_unit_eq_ok {β : Type} {x : StatusOr Unit} {f : Unit → StatusOr β} {b : β} :
    (x >>= f) = .ok b ↔ x = .ok () ∧ f () = .ok b := by
  rw [StatusOr.bind_eq_ok]
  exact ⟨fun ⟨_, h⟩ => h, fun h => ⟨(), h⟩⟩

theorem StatusOr.pure_eq_ok {a b : α} : (pure a : StatusOr α) = .ok b ↔ a = b := by
  simp [pure, Except.pure]

theorem StatusOr.toOption_eq_some {x : StatusOr α} {a : α} :
    x.toOption = some a ↔ x = .ok a := by
  cases x <;> simp [Except.toOption]

theorem StatusOr.map_eq_ok {x : StatusOr α} {f : α → β} {b : β} :
    f <$> x = .ok b ↔ ∃ a, x = .ok a ∧ f a = b := by
  cases x <;> simp [Functor.map, Except.map]

variable {p : Prop} {s : Status}

/-- A guard that throws leaves only the runs in which its condition is false. -/
theorem StatusOr.guard_eq_ok [Decidable p] {f : Unit → StatusOr α} {x : StatusOr α}
    {a : α} : (if p then (throw s : StatusOr Unit) >>= f else x) = .ok a ↔ ¬ p ∧ x = .ok a := by
  by_cases h : p
  · simp [h, throw, throwThe, MonadExceptOf.throw, bind, Except.bind]
  · simp [h]

@[simp] theorem StatusOr.throw_ne_ok {a : α} : (throw s : StatusOr α) ≠ .ok a := nofun

/-- A check at the end of a sequence passes when its condition is false. -/
theorem StatusOr.throwIf_eq_ok [Decidable p] :
    (if p then (throw s : StatusOr Unit) else pure ()) = .ok () ↔ ¬ p := by
  by_cases h : p <;> simp [h, StatusOr.pure_eq_ok]

theorem StatusOr.mapM_eq_ok {f : α → StatusOr β} {xs : List α} {ys : List β} :
    xs.mapM f = .ok ys ↔ List.Forall₂ (fun x y => f x = .ok y) xs ys := by
  induction xs generalizing ys with
  | nil =>
    rw [mapM_nil, StatusOr.pure_eq_ok, forall₂_nil_left_iff, eq_comm]
  | cons x xs ih =>
    simp only [mapM_cons, StatusOr.bind_eq_ok, StatusOr.pure_eq_ok, forall₂_cons_left_iff, ih]
    constructor
    · rintro ⟨y, hy, ys', hys, rfl⟩
      exact ⟨y, ys', hy, hys, rfl⟩
    · rintro ⟨y, ys', hy, hys, rfl⟩
      exact ⟨y, hy, ys', hys, rfl⟩

theorem StatusOr.mapM_isOk (f : α → StatusOr β) (xs : List α)
    (h : ∀ x ∈ xs, ∃ y, f x = .ok y) : ∃ ys, xs.mapM f = .ok ys := by
  induction xs with
  | nil => exact ⟨[], rfl⟩
  | cons x xs ih =>
    obtain ⟨y, hy⟩ := h x mem_cons_self
    obtain ⟨ys, hys⟩ := ih fun z hz => h z (mem_cons_of_mem _ hz)
    exact ⟨y :: ys, StatusOr.mapM_eq_ok.mpr (.cons hy (StatusOr.mapM_eq_ok.mp hys))⟩

/-- What a successful pass over a list produced, element by element. -/
theorem StatusOr.mem_of_mapM {f : α → StatusOr β} {xs : List α} {ys : List β}
    (h : xs.mapM f = .ok ys) {y : β} : y ∈ ys ↔ ∃ x ∈ xs, f x = .ok y := by
  rw [StatusOr.mapM_eq_ok] at h
  induction h with
  | nil => simp
  | cons hxy _ ih =>
    rw [mem_cons, ih, exists_mem_cons_iff, hxy, Except.ok.injEq, eq_comm]

theorem StatusOr.forall_of_mapM {f : α → StatusOr β} {xs : List α} {ys : List β}
    (h : xs.mapM f = .ok ys) : ∀ x ∈ xs, ∃ y ∈ ys, f x = .ok y := by
  rw [StatusOr.mapM_eq_ok] at h
  induction h with
  | nil => simp
  | cons hxy _ ih =>
    intro x hx
    rcases mem_cons.mp hx with rfl | hx
    · exact ⟨_, mem_cons_self, hxy⟩
    · obtain ⟨y, hy, hxy⟩ := ih x hx
      exact ⟨y, mem_cons_of_mem _ hy, hxy⟩

/-- What every step keeps of the elements seen so far holds at the end of a fold. -/
theorem StatusOr.foldlM_invariant {α σ : Type} {f : σ → α → StatusOr σ} {P : List α → σ → Prop}
    {s s' : σ} {xs : List α} (hstart : P [] s)
    (hstep : ∀ pre x s s', P pre s → f s x = .ok s' → P (pre ++ [x]) s')
    (h : xs.foldlM f s = .ok s') : P xs s' := by
  have hrest : ∀ rest pre s, P pre s → rest.foldlM f s = .ok s' → P (pre ++ rest) s' := by
    intro rest
    induction rest with
    | nil =>
      intro pre s hs h
      rw [append_nil, ← StatusOr.pure_eq_ok.mp h]
      exact hs
    | cons x rest ih =>
      intro pre s hs h
      obtain ⟨mid, hmid, h⟩ := StatusOr.bind_eq_ok.mp h
      rw [append_cons]
      exact ih _ mid (hstep pre x s mid hs hmid) h
  exact hrest xs [] s hstart h

/-- A fold succeeds when every step does from what the earlier ones left. -/
theorem StatusOr.foldlM_isOk {α σ : Type} {f : σ → α → StatusOr σ} (P : List α → σ → Prop)
    {s : σ} {l : List α} (hstart : P [] s)
    (hstep : ∀ pre x post, l = pre ++ x :: post → ∀ s, P pre s →
      ∃ s', f s x = .ok s' ∧ P (pre ++ [x]) s') :
    ∃ s', l.foldlM f s = .ok s' ∧ P l s' :=
  Ordered.foldlM_goesOn P hstart hstep

theorem StatusOr.forM_eq_ok {f : α → StatusOr Unit} {xs : List α} :
    xs.forM f = .ok () ↔ ∀ x ∈ xs, f x = .ok () := by
  induction xs with
  | nil => simp [pure, Except.pure]
  | cons x xs ih =>
    have hcons : (x :: xs).forM f = f x >>= fun _ => xs.forM f := rfl
    rw [hcons, StatusOr.bind_unit_eq_ok, ih, forall_mem_cons]

def Status.invalidArgument (message : String) : Status := ⟨.invalidArgument, message⟩

def Status.notFound (message : String) : Status := ⟨.notFound, message⟩

def Status.failedPrecondition (message : String) : Status := ⟨.failedPrecondition, message⟩

def Status.internal (message : String) : Status := ⟨.internal, message⟩

inductive IdKind
  | repository | revision | buildVariant | translationUnit | functionSymbol | functionVariant
  | functionBody | functionSummary | fact | scc | analysisRun | abstractObject | model
  | valueRef | memoryRef | callSite | basicBlockSummary | cpgProjection | cpgEdge
  | unknownNode | evidence
  deriving DecidableEq

/-- The enumerator's position, which is what `operator<=>` compares. -/
def IdKind.ordinal (kind : IdKind) : ℕ := kind.ctorIdx

theorem IdKind.ordinal_injective : Injective IdKind.ordinal :=
  Function.LeftInverse.injective (g := IdKind.ofNat) IdKind.ofNat_ctorIdx

def idKindToString : IdKind → String
  | .repository => "repo"
  | .revision => "rev"
  | .buildVariant => "bv"
  | .translationUnit => "tu"
  | .functionSymbol => "funcsym"
  | .functionVariant => "funcvar"
  | .functionBody => "funcbody"
  | .functionSummary => "summary"
  | .fact => "fact"
  | .scc => "scc"
  | .analysisRun => "run"
  | .abstractObject => "obj"
  | .model => "model"
  | .valueRef => "valref"
  | .memoryRef => "memref"
  | .callSite => "callsite"
  | .basicBlockSummary => "bbsummary"
  | .cpgProjection => "cpgproj"
  | .cpgEdge => "edge"
  | .unknownNode => "unknown"
  | .evidence => "evidence"

/-- The kinds in the order of the lookup table. -/
def idKinds : List IdKind :=
  [.repository, .revision, .buildVariant, .translationUnit, .functionSymbol, .functionVariant,
    .functionBody, .functionSummary, .fact, .scc, .analysisRun, .abstractObject, .model,
    .valueRef, .memoryRef, .callSite, .basicBlockSummary, .cpgProjection, .cpgEdge,
    .unknownNode, .evidence]

/-- The table has one entry for each spelling, so a search over the kinds reads it. -/
def stringToIdKind (str : String) : Option IdKind :=
  idKinds.find? fun kind => idKindToString kind = str

theorem stringToIdKind_idKindToString (kind : IdKind) :
    stringToIdKind (idKindToString kind) = some kind := by
  cases kind <;> decide

structure StableId where
  kind : IdKind
  digestHex : String

def StableId.sortKey (id : StableId) : ℕ ×ₗ String := toLex (id.kind.ordinal, id.digestHex)

theorem StableId.sortKey_injective : Injective StableId.sortKey := by
  rintro ⟨k, d⟩ ⟨k', d'⟩ h
  have h := Prod.ext_iff.mp (toLex.injective h)
  rw [StableId.mk.injEq]
  exact ⟨IdKind.ordinal_injective h.1, h.2⟩

instance : LinearOrder StableId := LinearOrder.lift' StableId.sortKey StableId.sortKey_injective

instance : LawfulBEq StableId := inferInstance

instance : Inhabited StableId := ⟨⟨.repository, ""⟩⟩

def StableId.toString (id : StableId) : String :=
  idKindToString id.kind ++ ":sha256:" ++ id.digestHex

theorem StableId.toString_injective_of_kind {a b : StableId} (hk : a.kind = b.kind)
    (h : a.toString = b.toString) : a = b := by
  obtain ⟨k, d⟩ := a
  obtain ⟨k', d'⟩ := b
  obtain rfl : k = k' := hk
  simpa [StableId.toString] using h

theorem idKindToString_injective : Injective idKindToString := by
  intro a b h
  have hlookup := congrArg stringToIdKind h
  simpa only [stringToIdKind_idKindToString, Option.some.injEq] using hlookup

theorem colon_notMem_idKindToString (kind : IdKind) : ':' ∉ (idKindToString kind).toList := by
  cases kind <;> decide

theorem IdKind.length_toString_le (kind : IdKind) : (idKindToString kind).length ≤ 9 := by
  cases kind <;> decide

theorem StableId.length_toString (id : StableId) :
    id.toString.length = (idKindToString id.kind).length + 8 + id.digestHex.length := by
  simp only [StableId.toString, String.length_append]
  rfl

/-- The hash is a parameter: no result depends on which digest it computes. -/
def makeStableId (sha256 : String → String) (kind : IdKind) (canonicalBytes : String) : StableId :=
  ⟨kind, sha256 canonicalBytes⟩

def isHexDigit (c : Char) : Bool :=
  ('0' ≤ c ∧ c ≤ '9') ∨ ('a' ≤ c ∧ c ≤ 'f') ∨ ('A' ≤ c ∧ c ≤ 'F')

def hexToNibble (c : Char) : ℕ :=
  if '0' ≤ c ∧ c ≤ '9' then c.toNat - '0'.toNat
  else if 'a' ≤ c ∧ c ≤ 'f' then c.toNat - 'a'.toNat + 10
  else if 'A' ≤ c ∧ c ≤ 'F' then c.toNat - 'A'.toNat + 10
  else 0

/-- The byte loop of `HexToDigest`; its length guard is in `hexToDigest`. -/
def hexBytes : List Char → Option (List ℕ)
  | [] => some []
  | [_] => none
  | high :: low :: rest =>
    if isHexDigit high ∧ isHexDigit low then
      (hexBytes rest).map ((hexToNibble high * 16 + hexToNibble low) :: ·)
    else none

def hexToDigest (hex : List Char) : Option (List ℕ) :=
  if hex.length = 64 then hexBytes hex else none

def hexChar (nibble : ℕ) : Char := "0123456789abcdef".toList.getD nibble '0'

def digestToHex (digest : List ℕ) : List Char :=
  digest.flatMap fun byte => [hexChar (byte / 16), hexChar (byte % 16)]

/-- The text before and after the first colon. -/
def splitColon (text : List Char) : Option (List Char × List Char) :=
  match text.span (· ≠ ':') with
  | (_, []) => none
  | (before, _ :: rest) => some (before, rest)

def parseStableId (text : String) : StatusOr StableId :=
  match splitColon text.toList with
  | none => throw (.invalidArgument "missing colon separator in ID")
  | some (kindText, rest) =>
    match splitColon rest with
    | none => throw (.invalidArgument "missing algorithm separator in ID")
    | some (algoText, digestText) =>
      match stringToIdKind (String.ofList kindText) with
      | none => throw (.invalidArgument "unrecognized ID kind")
      | some kind =>
        if String.ofList algoText ≠ "sha256" then
          throw (.invalidArgument "unsupported hash algorithm")
        else if digestText.length ≠ 64 then
          throw (.invalidArgument "invalid digest length")
        else
          match hexToDigest digestText with
          | none => throw (.invalidArgument "invalid SHA-256 digest")
          | some digest =>
            if digestToHex digest ≠ digestText then
              throw (.invalidArgument "invalid SHA-256 digest")
            else pure ⟨kind, String.ofList digestText⟩

theorem splitColon_eq_some {text before rest : List Char}
    (h : splitColon text = some (before, rest)) : text = before ++ ':' :: rest := by
  rw [splitColon, span_eq_takeWhile_dropWhile] at h
  have hsplit := takeWhile_append_dropWhile (p := (· ≠ ':')) (l := text)
  cases hdrop : text.dropWhile (· ≠ ':') with
  | nil =>
    rw [hdrop] at h
    exact absurd h nofun
  | cons c rest' =>
    rw [hdrop] at h hsplit
    obtain ⟨rfl, rfl⟩ := Prod.mk.inj (Option.some.inj h)
    have hnot := head?_dropWhile_not (· ≠ ':') text
    rw [hdrop] at hnot
    obtain rfl : c = ':' := by simpa using hnot
    exact hsplit.symm

/-- An id has one spelling. -/
theorem toString_of_parseStableId {text : String} {id : StableId}
    (h : parseStableId text = .ok id) : id.toString = text := by
  unfold parseStableId at h
  split at h
  · exact absurd h nofun
  · rename_i kindText rest hkind
    split at h
    · exact absurd h nofun
    · rename_i algoText digestText halgo
      split at h
      · exact absurd h nofun
      · rename_i kind hknown
        split_ifs at h with halgorithm hlength
        split at h
        · exact absurd h nofun
        · rename_i digest hdigest
          split_ifs at h
          obtain rfl := Except.ok.inj h
          have hname : idKindToString kind = String.ofList kindText :=
            by simpa using find?_some hknown
          have halgorithm : algoText = "sha256".toList := by
            rw [← not_not.mp halgorithm, toList_ofList]
          rw [← toList_inj, splitColon_eq_some hkind, splitColon_eq_some halgo, halgorithm]
          simp [StableId.toString, hname]

theorem hexToNibble_hexChar : ∀ n < 16, isHexDigit (hexChar n) ∧ hexToNibble (hexChar n) = n := by
  decide

theorem hexBytes_digestToHex {digest : List ℕ} (h : ∀ byte ∈ digest, byte < 256) :
    hexBytes (digestToHex digest) = some digest := by
  induction digest with
  | nil => rfl
  | cons byte digest ih =>
    have hbyte := h byte mem_cons_self
    obtain ⟨hhigh, hhigh'⟩ := hexToNibble_hexChar (byte / 16) (by omega)
    obtain ⟨hlow, hlow'⟩ := hexToNibble_hexChar (byte % 16) (by omega)
    have hcons : digestToHex (byte :: digest) =
        hexChar (byte / 16) :: hexChar (byte % 16) :: digestToHex digest := rfl
    rw [hcons, hexBytes, if_pos ⟨hhigh, hlow⟩, ih fun b hb => h b (mem_cons_of_mem _ hb),
      hhigh', hlow', Option.map_some, Nat.div_add_mod']

theorem length_digestToHex (digest : List ℕ) : (digestToHex digest).length = 2 * digest.length := by
  induction digest with
  | nil => rfl
  | cons byte digest ih =>
    have hcons : digestToHex (byte :: digest) =
        hexChar (byte / 16) :: hexChar (byte % 16) :: digestToHex digest := rfl
    rw [hcons, length_cons, length_cons, ih, length_cons]
    omega

/-- The lower-case digits of a digest of 32 bytes. -/
def IsDigestHex (text : String) : Prop :=
  ∃ digest : List ℕ, digest.length = 32 ∧ (∀ byte ∈ digest, byte < 256) ∧
    text.toList = digestToHex digest

theorem isDigestHex_replicate (n : ℕ) :
    IsDigestHex (String.ofList (digestToHex (List.replicate 32 (n % 256)))) := by
  refine ⟨_, length_replicate, fun byte hbyte => ?_, toList_ofList⟩
  rw [eq_of_mem_replicate hbyte]
  exact Nat.mod_lt _ (by decide)

theorem splitColon_append {before rest : List Char} (h : ':' ∉ before) :
    splitColon (before ++ ':' :: rest) = some (before, rest) := by
  have hspan : (before ++ ':' :: rest).span (· ≠ ':') = (before, ':' :: rest) := by
    rw [span_eq_takeWhile_dropWhile, takeWhile_append_of_pos, dropWhile_append_of_pos]
    · simp
    · intro c hc
      exact decide_eq_true fun heq => h (heq ▸ hc)
    · intro c hc
      exact decide_eq_true fun heq => h (heq ▸ hc)
  rw [splitColon, hspan]

theorem parseStableId_toString {id : StableId} (h : IsDigestHex id.digestHex) :
    parseStableId id.toString = .ok id := by
  obtain ⟨kind, digestHex⟩ := id
  obtain ⟨digest, hlength, hbytes, hdigits⟩ := h
  have htext : (StableId.mk kind digestHex).toString.toList =
      (idKindToString kind).toList ++ ':' :: ("sha256".toList ++ ':' :: digestHex.toList) := by
    simp [StableId.toString]
  have hlen : digestHex.toList.length = 64 := by
    rw [hdigits, length_digestToHex, hlength]
  have hparsed : hexToDigest digestHex.toList = some digest := by
    rw [hexToDigest, if_pos hlen, hdigits, hexBytes_digestToHex hbytes]
  simp only [parseStableId, htext, splitColon_append (colon_notMem_idKindToString kind),
    splitColon_append (by decide : ':' ∉ "sha256".toList), ofList_toList,
    stringToIdKind_idKindToString, hparsed]
  rw [if_neg (fun h => h rfl), if_neg (fun h => h hlen), if_neg (fun h => h hdigits.symm)]
  rfl

end Veritas
