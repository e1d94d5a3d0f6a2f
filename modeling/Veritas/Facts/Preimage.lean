import Veritas.Facts.SemanticKey

/-! Fact identity preimages: the two-mode cursor that writes them, and the identity memo. -/
namespace Veritas

open List hiding concat

open Function FieldCode MachineCell

/-- A cursor over the preimage: with no buffer it measures, with one it writes. -/
structure PreimageCursor where
  out : Option (List Char)
  size : ℕ
  pos : ℕ
  /-- Set once a write would have left the buffer. -/
  clamped : Bool

/-- `memcpy` of the data into the buffer. -/
def splice (out : List Char) (at_ : ℕ) (data : List Char) : List Char :=
  out.take at_ ++ (data ++ out.drop (at_ + data.length))

def PreimageCursor.put (c : PreimageCursor) (data : List Char) : PreimageCursor :=
  if data = [] then c
  else match c.out with
    | none => { c with pos := c.pos + data.length }
    | some out =>
      if c.pos + data.length > c.size then { c with pos := c.size, clamped := true }
      else { c with out := some (splice out c.pos data), pos := c.pos + data.length }

def PreimageCursor.byte (c : PreimageCursor) (value : ℕ) : PreimageCursor :=
  c.put (preimageByte value).toList

def PreimageCursor.u64 (c : PreimageCursor) (value : UInt64) : PreimageCursor :=
  c.put (encodeU64 value).toList

/-- Fills in the prefix that `BeginField` reserved from the bytes written since. -/
def PreimageCursor.endField (c : PreimageCursor) (fieldAt : ℕ) : PreimageCursor :=
  match c.out with
  | none => c
  | some out =>
    if fieldAt + 8 > c.size then { c with clamped := true }
    else
      { c with out := some (splice out fieldAt
          (encodeU64 (UInt64.ofNat (c.pos - fieldAt - 8))).toList) }

/-- A field is its reserved prefix, the body, and the prefix filled in at the end. -/
def PreimageCursor.field (body : PreimageCursor → PreimageCursor) (c : PreimageCursor) :
    PreimageCursor :=
  (body (c.u64 0)).endField c.pos

def PreimageCursor.lenPrefixed (c : PreimageCursor) (text : String) : PreimageCursor :=
  PreimageCursor.field (·.put text.toList) c

/-- `CellTag`, the byte that opens a cell. -/
def MachineCell.tag : MachineCell → ℕ
  | .stableId _ => 0
  | .int64 _ => 1
  | .uint64 _ => 2
  | .string _ => 3
  | .dispatchKind _ => 4
  | .aliasKind _ => 5
  | .byteRangeKind _ => 6
  | .epistemic _ => 7

/-- The whole rendered id is one field, put together without building its text first. -/
def PreimageCursor.cell (c : PreimageCursor) (cell : MachineCell) : PreimageCursor :=
  match cell with
  | .stableId id => PreimageCursor.field (fun c =>
      ((c.put (idKindToString id.kind).toList).put ":sha256:".toList).put id.digestHex.toList)
        (c.byte cell.tag)
  | .int64 v => (c.byte cell.tag).u64 v.toUInt64
  | .uint64 v => (c.byte cell.tag).u64 v
  | .string v => (c.byte cell.tag).lenPrefixed v
  | .dispatchKind v => (c.byte cell.tag).byte v.toNat
  | .aliasKind v => (c.byte cell.tag).byte v.toNat
  | .byteRangeKind v => (c.byte cell.tag).byte v.toNat
  | .epistemic v => (c.byte cell.tag).byte v.toNat

/-- A relation id outside the table contributes an empty name. -/
def preimageRelationName (relation : UInt16) : String :=
  match relationAt relation with
  | none => ""
  | some relation => (relationsV2 relation).name

def PreimageCursor.row (c : PreimageCursor) (row : MachineRow) : PreimageCursor :=
  row.cells.foldl PreimageCursor.cell
    ((c.lenPrefixed "relations.v2").lenPrefixed (preimageRelationName row.relation))

def preimageSize (row : MachineRow) : ℕ := (PreimageCursor.row ⟨none, 0, 0, false⟩ row).pos

/-- The cursor after writing a row over a buffer. -/
def writeInto (out : List Char) (row : MachineRow) : PreimageCursor :=
  PreimageCursor.row ⟨some out, out.length, 0, false⟩ row

def deriveMachineFactId (sha256 : String → String) (row : MachineRow) : StatusOr StableId := do
  validateMachineRow row
  let bytes := List.replicate (preimageSize row) (Char.ofNat 0)
  return makeStableId sha256 .fact (String.ofList ((writeInto bytes row).out.getD bytes))

/-- The scratch key survives between calls; the ids are looked up, never iterated. -/
structure FactIdentityMemo where
  key : List Char
  ids : String → Option StableId

def FactIdentityMemo.empty : FactIdentityMemo := ⟨[], fun _ => none⟩

/-- `std::string::resize`: the old bytes stay, new ones are zero. -/
def resize (key : List Char) (size : ℕ) : List Char :=
  key.take size ++ List.replicate (size - key.length) (Char.ofNat 0)

def FactIdentityMemo.identify (sha256 : String → String) (memo : FactIdentityMemo)
    (row : MachineRow) : StatusOr StableId × FactIdentityMemo :=
  let buffer := resize memo.key (preimageSize row)
  let key := (writeInto buffer row).out.getD buffer
  match memo.ids (String.ofList key) with
  | some cached => (.ok cached, { memo with key := key })
  | none =>
    match deriveMachineFactId sha256 row with
    | .ok derived =>
      (.ok derived, ⟨key, update memo.ids (String.ofList key) (some derived)⟩)
    -- only successful derivations are stored, so a rejected row stays rejected
    | .error status => (.error status, { memo with key := key })

/-- One memo over a sequence of calls. -/
def FactIdentityMemo.identifyAll (sha256 : String → String) (memo : FactIdentityMemo) :
    List MachineRow → List (StatusOr StableId)
  | [] => []
  | row :: rows =>
    let (answer, memo) := memo.identify sha256 row
    answer :: memo.identifyAll sha256 rows

def MachineCell.payload : MachineCell → String
  | .stableId id => Veritas.lenPrefixed id.toString
  | .int64 v => encodeU64 v.toUInt64
  | .uint64 v => encodeU64 v
  | .string v => Veritas.lenPrefixed v
  | .dispatchKind v => preimageByte v.toNat
  | .aliasKind v => preimageByte v.toNat
  | .byteRangeKind v => preimageByte v.toNat
  | .epistemic v => preimageByte v.toNat

def MachineCell.preimage (cell : MachineCell) : String := preimageByte cell.tag ++ cell.payload

def MachineRow.preimage (row : MachineRow) : String :=
  Veritas.lenPrefixed "relations.v2" ++ Veritas.lenPrefixed (preimageRelationName row.relation) ++
    concat MachineCell.preimage row.cells

/-- What an operation of the cursor does in either mode: it advances over the text, and over a
buffer it replaces exactly the bytes it advances over. -/
structure Emits (op : PreimageCursor → PreimageCursor) (text : List Char) : Prop where
  measure : ∀ c, c.out = none → op c = { c with pos := c.pos + text.length }
  write : ∀ c a b d, c.out = some (a ++ (b ++ d)) → c.size = (a ++ (b ++ d)).length →
    c.pos = a.length → b.length = text.length →
      op c = { c with out := some (a ++ (text ++ d)), pos := a.length + text.length }

theorem splice_append {a b d data : List Char} (h : b.length = data.length) :
    splice (a ++ (b ++ d)) a.length data = a ++ (data ++ d) := by
  rw [splice, take_left, ← h, ← drop_drop, drop_left, drop_left]

theorem emits_put (data : List Char) : Emits (·.put data) data := by
  refine ⟨?_, ?_⟩
  · intro c hout
    by_cases hdata : data = []
    · simp [PreimageCursor.put, hdata]
    · simp [PreimageCursor.put, hdata, hout]
  · intro c a b d hout hsize hpos hlen
    by_cases hdata : data = []
    · have hb : b = [] := length_eq_zero_iff.mp (by rw [hlen, hdata]; rfl)
      cases c
      simp_all [PreimageCursor.put]
    · have hfits : ¬ c.pos + data.length > c.size := by
        rw [hsize, hpos, length_append, length_append]
        omega
      simp only [PreimageCursor.put, hdata, if_false, hout, if_neg hfits]
      rw [hpos, splice_append hlen]

theorem Emits.comp {f g : PreimageCursor → PreimageCursor} {s t : List Char} (hf : Emits f s)
    (hg : Emits g t) : Emits (fun c => g (f c)) (s ++ t) := by
  refine ⟨?_, ?_⟩
  · intro c hout
    rw [hf.measure c hout, hg.measure { c with pos := c.pos + s.length } hout,
      length_append, Nat.add_assoc]
  · intro c a b d hout hsize hpos hlen
    obtain ⟨b₁, b₂, rfl, hb₁⟩ : ∃ b₁ b₂, b = b₁ ++ b₂ ∧ b₁.length = s.length := by
      refine ⟨b.take s.length, b.drop s.length, (take_append_drop _ _).symm, ?_⟩
      rw [length_take, hlen, length_append]
      omega
    have hb₂ : b₂.length = t.length := by
      simp only [length_append] at hlen
      omega
    rw [hf.write c a b₁ (b₂ ++ d) (by simpa using hout) (by simpa using hsize) hpos hb₁]
    rw [hg.write _ (a ++ s) b₂ d (by simp) (by simp [hsize, hb₁]) (by simp) hb₂]
    simp [Nat.add_assoc]

theorem encodeU64_length (value : UInt64) : (encodeU64 value).toList.length = 8 := by
  simp [encodeU64]

/-- The prefix filled in at the end counts the bytes of the body. -/
theorem Emits.field {body : PreimageCursor → PreimageCursor} {text : List Char}
    (h : Emits body text) : Emits (PreimageCursor.field body)
      ((encodeU64 (UInt64.ofNat text.length)).toList ++ text) := by
  have hbegin : Emits (fun c => body (c.u64 0)) ((encodeU64 0).toList ++ text) :=
    (emits_put _).comp h
  refine ⟨?_, ?_⟩
  · intro c hout
    rw [PreimageCursor.field, hbegin.measure c hout]
    simp [PreimageCursor.endField, hout, encodeU64_length]
  · intro c a b d hout hsize hpos hlen
    have hlen' : b.length = ((encodeU64 0).toList ++ text).length := by
      simpa [encodeU64_length] using hlen
    rw [PreimageCursor.field, hbegin.write c a b d hout hsize hpos hlen']
    have hfits : ¬ a.length + 8 > c.size := by
      simp only [length_append, encodeU64_length] at hlen
      rw [hsize, length_append, length_append, hlen]
      omega
    have hcount : a.length + ((encodeU64 0).toList ++ text).length - a.length - 8 =
        text.length := by
      rw [length_append, encodeU64_length]
      omega
    simp only [PreimageCursor.endField, hpos, if_neg hfits, hcount, append_assoc]
    rw [splice_append (by rw [encodeU64_length, encodeU64_length])]
    simp [encodeU64_length]

theorem emits_lenPrefixed (text : String) :
    Emits (·.lenPrefixed text) (Veritas.lenPrefixed text).toList := by
  have h := (emits_put text.toList).field
  rw [Veritas.lenPrefixed, String.toList_append]
  exact h

theorem emits_cell (cell : MachineCell) : Emits (·.cell cell) cell.preimage.toList := by
  rw [preimage, String.toList_append]
  cases cell
  case stableId id =>
    have hbody := ((emits_put (idKindToString id.kind).toList).comp
      (emits_put ":sha256:".toList)).comp (emits_put id.digestHex.toList)
    have htext : (idKindToString id.kind).toList ++ ":sha256:".toList ++ id.digestHex.toList =
        id.toString.toList := by
      simp only [StableId.toString, String.toList_append]
    have hfield := hbody.field
    rw [htext, String.length_toList] at hfield
    rw [payload, Veritas.lenPrefixed, String.toList_append]
    exact (emits_put _).comp hfield
  case string v => exact (emits_put _).comp (emits_lenPrefixed v)
  all_goals exact (emits_put _).comp (emits_put _)

theorem emits_cells (cells : List MachineCell) : Emits (fun c => cells.foldl PreimageCursor.cell c)
      (concat preimage cells).toList := by
  induction cells with
  | nil => exact emits_put []
  | cons cell cells ih =>
    rw [concat, String.toList_append]
    exact (emits_cell cell).comp ih

theorem emits_row (row : MachineRow) : Emits (·.row row) row.preimage.toList := by
  rw [MachineRow.preimage, String.toList_append, String.toList_append]
  exact ((emits_lenPrefixed _).comp (emits_lenPrefixed _)).comp (emits_cells row.cells)

theorem preimageSize_eq (row : MachineRow) : preimageSize row = row.preimage.length := by
  rw [preimageSize, (emits_row row).measure _ rfl, String.length_toList]
  exact Nat.zero_add _

variable {row : MachineRow} {sha256 : String → String} {memo : FactIdentityMemo}

/-- Over a buffer of the measured size the writer fills every byte and never clamps. -/
theorem writeInto_eq {out : List Char} (h : out.length = preimageSize row) :
    writeInto out row = ⟨some row.preimage.toList, out.length, preimageSize row, false⟩ := by
  have hlen : out.length = row.preimage.toList.length := by
    rw [h, preimageSize_eq, String.length_toList]
  have hwrite := (emits_row row).write ⟨some out, out.length, 0, false⟩ [] out [] (by simp)
    (by simp) rfl hlen
  rw [writeInto, hwrite]
  simp [preimageSize_eq, String.length_toList]

theorem toNat_charOfNat {n : ℕ} (h : n < 256) : (Char.ofNat n).toNat = n := by
  have hvalid : n.isValidChar := Or.inl (by omega)
  rw [Char.ofNat, dif_pos hvalid]
  rfl

theorem preimageByte_append_inj {m n : ℕ} (hm : m < 256) (hn : n < 256) {r r' : String}
    (h : preimageByte m ++ r = preimageByte n ++ r') : m = n ∧ r = r' := by
  obtain ⟨hbyte, hr⟩ := singleton_prefixFree _ _ _ _ h
  have hbyte := congrArg Char.toNat hbyte
  rw [toNat_charOfNat hm, toNat_charOfNat hn] at hbyte
  exact ⟨hbyte, hr⟩

theorem boolByte_prefixFree : PrefixFree fun value : Bool => preimageByte value.toNat := by
  intro a b r r' h
  have hbit : ∀ b : Bool, b.toNat < 256 := by decide
  obtain ⟨hvalue, hr⟩ := preimageByte_append_inj (hbit a) (hbit b) h
  cases a <;> cases b <;> first | exact ⟨rfl, hr⟩ | cases hvalue

theorem encodeU64_injective : Injective encodeU64 := by
  intro v w h
  have hbytes := List.map_eq_map_iff.mp (String.ofList_injective h)
  apply UInt64.toNat_inj.mp
  refine eq_of_digits 256 8 v.toNat_lt w.toNat_lt ?_
  intro i hi
  have hbyte := congrArg Char.toNat (hbytes (7 - i) (mem_range.mpr (by omega)))
  rwa [toNat_charOfNat (Nat.mod_lt _ (by decide)), toNat_charOfNat (Nat.mod_lt _ (by decide)),
    show 7 - (7 - i) = i by omega] at hbyte

theorem length_encodeU64 (value : UInt64) : (encodeU64 value).length = 8 := by
  rw [← String.length_toList, encodeU64_length]

theorem encodeU64_prefixFree : PrefixFree encodeU64 :=
  prefixFree_of_length length_encodeU64 encodeU64_injective

theorem encodeInt64_prefixFree : PrefixFree fun value : Int64 => encodeU64 value.toUInt64 := by
  rintro ⟨a⟩ ⟨b⟩ r r' h
  obtain ⟨hvalue, hr⟩ := encodeU64_prefixFree _ _ _ _ h
  exact ⟨congrArg Int64.ofUInt64 hvalue, hr⟩

theorem lenPrefixed_append_inj {a b r r' : String} (ha : a.length < 2 ^ 64)
    (hb : b.length < 2 ^ 64) (h : lenPrefixed a ++ r = lenPrefixed b ++ r') :
    a = b ∧ r = r' := by
  rw [lenPrefixed, lenPrefixed, String.append_assoc, String.append_assoc] at h
  obtain ⟨hcount, hrest⟩ := encodeU64_prefixFree _ _ _ _ h
  have hcount := congrArg UInt64.toNat hcount
  rw [UInt64.toNat_ofNat_of_lt' ha, UInt64.toNat_ofNat_of_lt' hb] at hcount
  exact append_inj_of_length hrest hcount

theorem tag_lt (cell : MachineCell) : cell.tag < 256 := by
  cases cell <;> simp [tag]

theorem preimage_append_inj {a b : MachineCell} (ha : a.Fits) (hb : b.Fits) {r r' : String}
    (h : a.preimage ++ r = b.preimage ++ r') : a = b ∧ r = r' := by
  rw [preimage, preimage, String.append_assoc, String.append_assoc] at h
  obtain ⟨htag, hpayload⟩ := preimageByte_append_inj (tag_lt a) (tag_lt b) h
  have henum : ∀ {m n : UInt8}, preimageByte m.toNat ++ r = preimageByte n.toNat ++ r' →
      m = n ∧ r = r' := by
    intro m n h
    obtain ⟨hbyte, hr⟩ := preimageByte_append_inj m.toNat_lt n.toNat_lt h
    exact ⟨UInt8.toNat_inj.mp hbyte, hr⟩
  have hrendered : ∀ {id : StableId}, id.digestHex.length < 2 ^ 63 →
      id.toString.length < 2 ^ 64 := by
    intro id hid
    rw [StableId.length_toString]
    have := id.kind.length_toString_le
    omega
  cases a <;> cases b <;> simp [tag] at htag
  case stableId.stableId x y =>
    obtain ⟨htext, hr⟩ := lenPrefixed_append_inj (hrendered ha) (hrendered hb) hpayload
    exact ⟨by rw [StableId.toString_injective htext], hr⟩
  case int64.int64 v w =>
    obtain ⟨hvalue, hr⟩ := encodeInt64_prefixFree _ _ _ _ hpayload
    exact ⟨by rw [hvalue], hr⟩
  case uint64.uint64 v w =>
    obtain ⟨hvalue, hr⟩ := encodeU64_prefixFree _ _ _ _ hpayload
    exact ⟨by rw [hvalue], hr⟩
  case string.string v w =>
    have hv : v.length < 2 ^ 63 := ha
    have hw : w.length < 2 ^ 63 := hb
    obtain ⟨hvalue, hr⟩ := lenPrefixed_append_inj (by omega) (by omega) hpayload
    exact ⟨by rw [hvalue], hr⟩
  all_goals
    obtain ⟨hvalue, hr⟩ := henum hpayload
    exact ⟨by rw [hvalue], hr⟩

theorem relationName_length_lt (relation : UInt16) :
    (preimageRelationName relation).length < 2 ^ 64 := by
  unfold preimageRelationName
  cases relationAt relation with
  | none => decide
  | some relation => cases relation <;> decide

theorem relationName_ne_empty (relation : RelationId) : (relationsV2 relation).name ≠ "" := by
  cases relation <;> decide

/-- A relation inside the table is named by the preimage, whatever the other row's id is. -/
theorem relation_eq_of_name {a b : UInt16} (ha : (relationAt a).isSome)
    (h : preimageRelationName a = preimageRelationName b) : a = b := by
  obtain ⟨ra, hra⟩ := Option.isSome_iff_exists.mp ha
  simp only [preimageRelationName, hra] at h
  cases hrb : relationAt b with
  | none =>
    rw [hrb] at h
    exact absurd h (relationName_ne_empty ra)
  | some rb =>
    rw [hrb] at h
    obtain rfl : ra = rb := relationsV2_name_injective h
    exact (toMachine_of_relationAt hra).trans (toMachine_of_relationAt hrb).symm

theorem preimage_ne_empty (cell : MachineCell) : cell.preimage ≠ "" := by
  intro h
  exact absurd (String.append_eq_empty_iff.mp h).1 (by simp [preimageByte])

/-- A preimage names its row among all rows, as soon as one of the relation ids is in range. -/
theorem MachineRow.preimage_inj {a b : MachineRow} (ha : a.Fits) (hb : b.Fits)
    (hin : (relationAt a.relation).isSome) (h : a.preimage = b.preimage) : a = b := by
  rw [MachineRow.preimage, MachineRow.preimage, String.append_assoc, String.append_assoc,
    String.append_right_inj] at h
  obtain ⟨hname, hcells⟩ := lenPrefixed_append_inj (relationName_length_lt _)
    (relationName_length_lt _) h
  refine MachineRow.ext (relation_eq_of_name hin hname) ?_
  -- the cells are compared as code words of the cells that fit
  have hcode : PrefixFree fun c : {c : MachineCell // c.Fits} => c.1.preimage := by
    rintro ⟨x, hx⟩ ⟨y, hy⟩ r r' hxy
    obtain ⟨rfl, hr⟩ := preimage_append_inj hx hy hxy
    exact ⟨rfl, hr⟩
  have hattach : ∀ {cells : List MachineCell} (hfits : ∀ c ∈ cells, c.Fits),
      concat (fun c : {c : MachineCell // c.Fits} => c.1.preimage)
        (cells.attachWith MachineCell.Fits hfits) = concat MachineCell.preimage cells := by
    intro cells
    induction cells with
    | nil =>
      intro _
      rfl
    | cons c cells ih =>
      intro hfits
      rw [attachWith_cons, concat, concat, ih]
  rw [← hattach ha, ← hattach hb] at hcells
  have hlists := concat_inj hcode (fun c => preimage_ne_empty c.1) hcells
  have hval : ∀ {cells : List MachineCell} (hfits : ∀ c ∈ cells, c.Fits),
      (cells.attachWith MachineCell.Fits hfits).map Subtype.val = cells := by
    intro cells hfits
    simp
  rw [← hval ha, ← hval hb, hlists]

theorem deriveMachineFactId_eq (sha256 : String → String) (row : MachineRow) :
    deriveMachineFactId sha256 row =
      (validateMachineRow row).map fun _ => makeStableId sha256 .fact row.preimage := by
  have hbytes := writeInto_eq (length_replicate (n := preimageSize row) (a := Char.ofNat 0))
  simp only [deriveMachineFactId, hbytes, Option.getD_some, String.ofList_toList]
  cases validateMachineRow row <;> rfl

/-- Rows whose enumerations are in range have the id they had before. -/
theorem deriveMachineFactId_machine (sha256 : String → String) (row : SemanticRow) :
    deriveMachineFactId sha256 row.machine = deriveFactId sha256 row := by
  have hcell : ∀ cell : SemanticCellValue, cell.machine.preimage = preimageCell cell := by
    intro cell
    cases cell
    case dispatchKind v => cases v <;> rfl
    case aliasKind v => cases v <;> rfl
    case byteRangeKind v => cases v <;> rfl
    case epistemic v => cases v <;> rfl
    all_goals rfl
  have hcells : ∀ cells : List SemanticCellValue,
      concat MachineCell.preimage (cells.map (·.machine)) =
        String.join (cells.map preimageCell) := by
    intro cells
    induction cells with
    | nil => rfl
    | cons cell cells ih => rw [map_cons, concat, ih, hcell, map_cons, String.join_cons]
  have hpreimage : row.machine.preimage = writePreimage row := by
    simp only [MachineRow.preimage, SemanticRow.machine, preimageRelationName,
      relationAt_toMachine, writePreimage, hcells]
  rw [deriveMachineFactId_eq, validateMachineRow_machine, hpreimage]
  unfold deriveFactId
  cases validateSemanticRow row <;> rfl

theorem length_resize (key : List Char) (size : ℕ) : (resize key size).length = size := by
  simp only [resize, length_append, length_take, length_replicate]
  omega

/-- Every stored id is the one derived from some row with that preimage. -/
def FactIdentityMemo.Sound (sha256 : String → String) (memo : FactIdentityMemo) : Prop :=
  ∀ key id, memo.ids key = some id →
    ∃ row : MachineRow, row.Fits ∧ row.preimage = key ∧ deriveMachineFactId sha256 row = .ok id

theorem relationAt_isSome_of_derive {id : StableId} (h : deriveMachineFactId sha256 row = .ok id) :
    (relationAt row.relation).isSome := by
  obtain ⟨hvalid, -⟩ := StatusOr.bind_unit_eq_ok.mp h
  obtain ⟨relation, hrelation, -⟩ := validateMachineRow_eq_ok.mp hvalid
  rw [hrelation]
  rfl

theorem identify_spec (hmemo : memo.Sound sha256) (hrow : row.Fits) :
    (memo.identify sha256 row).1 = deriveMachineFactId sha256 row ∧
      (memo.identify sha256 row).2.Sound sha256 := by
  have hkey : (writeInto (resize memo.key (preimageSize row)) row).out.getD
      (resize memo.key (preimageSize row)) = row.preimage.toList := by
    rw [writeInto_eq (length_resize _ _)]
    rfl
  unfold FactIdentityMemo.identify
  simp only [hkey, String.ofList_toList]
  cases hhit : memo.ids row.preimage with
  | some cached =>
    -- the entry was stored for a valid row with this preimage, which is the row itself
    obtain ⟨stored, hfits, hpreimage, hderived⟩ := hmemo _ _ hhit
    have hsame := MachineRow.preimage_inj hfits hrow (relationAt_isSome_of_derive hderived)
      hpreimage
    subst hsame
    exact ⟨hderived.symm, hmemo⟩
  | none =>
    cases hderived : deriveMachineFactId sha256 row with
    | error status => exact ⟨rfl, hmemo⟩
    | ok derived =>
      refine ⟨rfl, ?_⟩
      intro key id hid
      by_cases hnew : key = row.preimage
      · subst hnew
        have hid : some derived = some id := by simpa using hid
        rw [← Option.some.inj hid]
        exact ⟨row, hrow, rfl, hderived⟩
      · exact hmemo key id (by simpa [update_of_ne hnew] using hid)

theorem identifyAll_eq {rows : List MachineRow} (hmemo : memo.Sound sha256)
    (hrows : ∀ row ∈ rows, row.Fits) :
    memo.identifyAll sha256 rows = rows.map (deriveMachineFactId sha256) := by
  induction rows generalizing memo with
  | nil => rfl
  | cons row rows ih =>
    obtain ⟨hanswer, hsound⟩ := identify_spec hmemo (hrows row mem_cons_self)
    have hrest := ih hsound fun r hr => hrows r (mem_cons_of_mem _ hr)
    rw [FactIdentityMemo.identifyAll, map_cons, ← hanswer, ← hrest]

theorem FactIdentityMemo.empty_sound (sha256 : String → String) :
    FactIdentityMemo.empty.Sound sha256 := by
  intro key id h
  cases h

/-- Preimages are injective on the relations of the table, measured exactly, and the memo over
them answers every sequence of calls as the derivation does. -/
theorem preimages_injective_and_memo_transparent (sha256 : String → String) :
    (∀ r₁ r₂ : MachineRow, r₁.Fits → r₂.Fits → r₁.relation.toNat < relationIds.length →
      r₂.relation.toNat < relationIds.length → ∀ out₁ out₂ : List Char,
        out₁.length = preimageSize r₁ → out₂.length = preimageSize r₂ →
          (writeInto out₁ r₁).out = (writeInto out₂ r₂).out → r₁ = r₂) ∧
    (∀ (r : MachineRow) (out : List Char), out.length = preimageSize r →
      (writeInto out r).pos = preimageSize r ∧ (writeInto out r).clamped = false ∧
        (writeInto out r).out = some r.preimage.toList) ∧
    ∀ rows : List MachineRow, (∀ row ∈ rows, row.Fits) →
      FactIdentityMemo.empty.identifyAll sha256 rows = rows.map (deriveMachineFactId sha256) := by
  refine ⟨?_, ?_, ?_⟩
  · intro r₁ r₂ h₁ h₂ hin₁ _ out₁ out₂ hout₁ hout₂ h
    rw [writeInto_eq hout₁, writeInto_eq hout₂] at h
    have hin : (relationAt r₁.relation).isSome := by
      simpa [relationAt] using hin₁
    exact MachineRow.preimage_inj h₁ h₂ hin (String.toList_inj.mp (Option.some.inj h))
  · intro r out hout
    rw [writeInto_eq hout]
    exact ⟨rfl, rfl, rfl⟩
  · intro rows hrows
    exact identifyAll_eq (FactIdentityMemo.empty_sound sha256) hrows

end Veritas
