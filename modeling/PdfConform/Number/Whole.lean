/-! Whole numbers as text: plain decimal digits, an optional sign, nothing else.
Leading zeros are allowed on reading and never written. -/
namespace PdfConform

/-- Sums of lists start from this zero wherever they stand, beside the instances of algebra and
without them. -/
scoped instance (priority := 10000) zeroNat : Zero Nat := ⟨0⟩

namespace Number

def digit (n : Nat) : Char := Char.ofNat (48 + n)

/-- Decimal digits without leading zeros; zero itself is a single digit. -/
def digits (n : Nat) : List Char :=
  if n < 10 then [digit n] else digits (n / 10) ++ [digit (n % 10)]

/-- The value of a run of decimal digits, most significant first. -/
def ofDigits (cs : List Char) : Nat :=
  cs.foldl (fun n c => 10 * n + (c.toNat - 48)) 0

def readDigits (cs : List Char) : Option Nat :=
  if !cs.isEmpty && cs.all Char.isDigit then some (ofDigits cs) else none

/-- An unsigned number; a plus sign is allowed, a minus sign is not. -/
def readNat : List Char → Option Nat
  | '+' :: rest => readDigits rest
  | cs => readDigits cs

/-- An unsigned number below `bound`. -/
def readBelow (bound : Nat) (cs : List Char) : Option Nat :=
  (readNat cs).filter (· < bound)

def readInt : List Char → Option Int
  | '-' :: rest => (readDigits rest).map fun n => -(n : Int)
  | cs => (readNat cs).map Int.ofNat

def toInt64? (i : Int) : Option Int64 :=
  if Int64.minValue.toInt ≤ i && i ≤ Int64.maxValue.toInt then some (Int64.ofInt i) else none

def readInt64 (cs : List Char) : Option Int64 := (readInt cs).bind toInt64?

def showNat (n : Nat) : String := String.ofList (digits n)

def showInt (i : Int) : String :=
  match i with
  | .ofNat n => showNat n
  | .negSucc n => String.ofList ('-' :: digits (n + 1))

theorem toNat_digit {n : Nat} (h : n < 10) : (digit n).toNat = 48 + n := by
  have : ∀ i : Fin 10, (digit i).toNat = 48 + i.val := by decide
  exact this ⟨n, h⟩

theorem isDigit_digit {n : Nat} (h : n < 10) : (digit n).isDigit = true := by
  have : ∀ i : Fin 10, (digit i).isDigit = true := by decide
  exact this ⟨n, h⟩

theorem digits_ne_nil (n : Nat) : digits n ≠ [] := by
  unfold digits
  split <;> simp

theorem all_isDigit_digits (n : Nat) : (digits n).all Char.isDigit = true := by
  fun_induction digits n with
  | case1 n h => simpa using isDigit_digit h
  | case2 n _ ih => simpa [isDigit_digit (Nat.mod_lt n (by decide))] using ih

theorem ofDigits_append_singleton (cs : List Char) (c : Char) :
    ofDigits (cs ++ [c]) = 10 * ofDigits cs + (c.toNat - 48) := by
  simp [ofDigits]

@[simp] theorem ofDigits_digits (n : Nat) : ofDigits (digits n) = n := by
  fun_induction digits n with
  | case1 n h => simp [ofDigits, toNat_digit h]
  | case2 n _ ih =>
    rw [ofDigits_append_singleton, ih, toNat_digit (Nat.mod_lt n (by decide))]
    omega

@[simp] theorem readDigits_digits (n : Nat) : readDigits (digits n) = some n := by
  simp [readDigits, all_isDigit_digits, digits_ne_nil]

/-- Written digits start with neither sign. -/
theorem readNat_digits (n : Nat) : readNat (digits n) = some n := by
  unfold readNat
  split
  · next rest h =>
    have hd := all_isDigit_digits n
    rw [h] at hd
    simp [Char.isDigit] at hd
  · exact readDigits_digits n

theorem readInt_showInt (i : Int) : readInt (showInt i).toList = some i := by
  unfold showInt
  split
  · next n =>
    rw [showNat, String.toList_ofList]
    unfold readInt
    split
    · next rest h =>
      have hd := all_isDigit_digits n
      rw [h] at hd
      simp [Char.isDigit] at hd
    · simp [readNat_digits]
  · next n =>
    rw [String.toList_ofList, readInt, readDigits_digits]
    rfl

theorem readBelow_digits {bound n : Nat} (h : n < bound) :
    readBelow bound (digits n) = some n := by
  simp [readBelow, readNat_digits, h]

theorem toInt64?_toInt (i : Int64) : toInt64? i.toInt = some i := by
  have := Int64.le_toInt i
  simp_all [toInt64?, Int64.toInt_le]

theorem readInt64_showInt (i : Int64) : readInt64 (showInt i.toInt).toList = some i := by
  simp [readInt64, readInt_showInt, toInt64?_toInt]

theorem digits_inj {m n : Nat} (h : digits m = digits n) : m = n := by
  rw [← ofDigits_digits m, h, ofDigits_digits]

end Number

end PdfConform
