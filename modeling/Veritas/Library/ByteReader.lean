import Mathlib.Algebra.Ring.Nat

/-! Readers that consume a byte string from the front, and little-endian numbers. -/
namespace ByteReader

/-- A reader takes bytes off the front or fails. -/
abbrev Reader (ε : Type) := StateT (List UInt8) (Except ε)

variable {ε α β : Type} {r : Reader ε α}

/-- The next `n` bytes. -/
def take (n : ℕ) (short : ε) : Reader ε (List UInt8) := fun bytes =>
  if bytes.length < n then .error short else .ok (bytes.take n, bytes.drop n)

/-- A value that was computed beside the bytes. -/
def computed (answer : Except ε α) : Reader ε α := fun bytes => answer.map (·, bytes)

/-- One value after another, `n` of them. -/
def many (r : Reader ε α) : ℕ → Reader ε (List α)
  | 0 => pure []
  | n + 1 => do
    let a ← r
    let rest ← many r n
    return a :: rest

/-- The reader takes exactly `bytes` for the value `a`, whatever comes behind them. -/
def Reads (r : Reader ε α) (bytes : List UInt8) (a : α) : Prop :=
  ∀ rest, r (bytes ++ rest) = .ok (a, rest)

variable {a : α} {f : α → Reader ε β} {xs : List UInt8}

theorem Reads.pure {b : α} (h : a = b) : Reads (Pure.pure a : Reader ε α) [] b :=
  fun _ => h ▸ rfl

theorem Reads.bind {ys : List UInt8} {b : β} (hr : Reads r xs a) (hf : Reads (f a) ys b) :
    Reads (r >>= f) (xs ++ ys) b := by
  intro rest
  have hstep : (r >>= f) (xs ++ ys ++ rest) = (r (xs ++ (ys ++ rest))).bind fun p => f p.1 p.2 := by
    rw [List.append_assoc]
    rfl
  rw [hstep, hr, ← hf rest]
  rfl

/-- A step that takes no more bytes. -/
theorem Reads.last {b : β} (hr : Reads r xs a) (hf : Reads (f a) [] b) : Reads (r >>= f) xs b := by
  have hboth := hr.bind hf
  rwa [List.append_nil] at hboth

theorem Reads.computed {answer : Except ε α} (h : answer = .ok a) :
    Reads (computed answer) [] a := by
  intro rest
  rw [h]
  rfl

theorem Reads.take {n : ℕ} (short : ε) (h : xs.length = n) : Reads (take n short) xs xs := by
  intro rest
  have hlong : ¬ (xs ++ rest).length < n := by
    rw [List.length_append]
    omega
  rw [ByteReader.take, if_neg hlong, ← h, List.take_left, List.drop_left]

theorem Reads.many {encode : α → List UInt8} {as : List α} (h : ∀ a ∈ as, Reads r (encode a) a) :
    Reads (many r as.length) (as.flatMap encode) as := by
  induction as with
  | nil => exact Reads.pure rfl
  | cons a as ih =>
    obtain ⟨ha, has⟩ := List.forall_mem_cons.mp h
    exact ha.bind ((ih has).last (Reads.pure rfl))

/-- The low `n` bytes of a number, the lowest first. -/
def leBytes : ℕ → ℕ → List UInt8
  | 0, _ => []
  | n + 1, value => UInt8.ofNat value :: leBytes n (value / 256)

def ofLeBytes : List UInt8 → ℕ
  | [] => 0
  | byte :: bytes => byte.toNat + 256 * ofLeBytes bytes

@[simp] theorem length_leBytes (n value : ℕ) : (leBytes n value).length = n := by
  induction n generalizing value with
  | zero => rfl
  | succ n ih => rw [leBytes, List.length_cons, ih]

theorem ofLeBytes_leBytes {n value : ℕ} (h : value < 256 ^ n) :
    ofLeBytes (leBytes n value) = value := by
  induction n generalizing value with
  | zero =>
    have hzero : value = 0 := by omega
    rw [hzero]
    rfl
  | succ n ih =>
    have hrest : value / 256 < 256 ^ n := by
      rw [Nat.div_lt_iff_lt_mul (by decide), ← Nat.pow_succ]
      exact h
    have hlow : (UInt8.ofNat value).toNat = value % 256 := UInt8.toNat_ofNat'
    rw [leBytes, ofLeBytes, ih hrest, hlow]
    omega

end ByteReader
