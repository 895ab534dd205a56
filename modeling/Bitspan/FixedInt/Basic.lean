set_option autoImplicit false

/-!
# Fixed-width integers

An integer type is a storage size with or without a sign, and a value of it is an integer together
with the proof that it lies in the range of the type. No operation here can leave that range;
arithmetic that could is in `Bitspan.FixedInt.Checked`. Ranges, widths and balanced bounds are all
stated with the powers of two, each one a shifted left.
-/

namespace Bitspan

/-! ## Powers of two -/

def twoPow (n : Nat) : Nat := 1 <<< n

theorem twoPow_zero : twoPow 0 = 1 := rfl

theorem twoPow_succ (n : Nat) : twoPow (n + 1) = 2 * twoPow n := by
  unfold twoPow
  rw [Nat.shiftLeft_succ]

theorem twoPow_pos (n : Nat) : 0 < twoPow n := by
  induction n with
  | zero => decide
  | succ n ih =>
    rw [twoPow_succ]
    omega

theorem twoPow_le_twoPow {m n : Nat} (h : m ≤ n) : twoPow m ≤ twoPow n := by
  induction h with
  | refl => exact Nat.le_refl _
  | step _ ih =>
    rw [twoPow_succ]
    omega

/-! ## Types and values -/

inductive StorageSize where
  | bits8
  | bits16
  | bits32
  | bits64
  | bits128
deriving DecidableEq

namespace StorageSize

def bits : StorageSize → Nat
  | bits8 => 8
  | bits16 => 16
  | bits32 => 32
  | bits64 => 64
  | bits128 => 128

end StorageSize

inductive IntType where
  | signed (size : StorageSize)
  | unsigned (size : StorageSize)
deriving DecidableEq

namespace IntType

/-- The type wide enough for the difference and the size of any two bounds. -/
abbrev wide : IntType := signed .bits128

def bits : IntType → Nat
  | signed size => size.bits
  | unsigned size => size.bits

def least : IntType → Int
  | signed size => -twoPow (size.bits - 1)
  | unsigned _ => 0

def greatest : IntType → Int
  | signed size => twoPow (size.bits - 1) - 1
  | unsigned size => twoPow size.bits - 1

def Fits (t : IntType) (v : Int) : Prop :=
  t.least ≤ v ∧ v ≤ t.greatest

instance (t : IntType) (v : Int) : Decidable (t.Fits v) :=
  inferInstanceAs (Decidable (t.least ≤ v ∧ v ≤ t.greatest))

theorem fits_zero (t : IntType) : t.Fits 0 := by
  rcases t with size | size <;> cases size <;> decide

theorem fits_one (t : IntType) : t.Fits 1 := by
  rcases t with size | size <;> cases size <;> decide

theorem least_nonpos (t : IntType) : t.least ≤ 0 := t.fits_zero.1

theorem one_le_greatest (t : IntType) : 1 ≤ t.greatest := t.fits_one.2

/-- Every value between two values that fit, fits. -/
theorem Fits.of_between {t : IntType} {l v u : Int} (hl : t.Fits l) (hu : t.Fits u)
    (hlv : l ≤ v) (hvu : v ≤ u) : t.Fits v :=
  ⟨Int.le_trans hl.1 hlv, Int.le_trans hvu hu.2⟩

end IntType

/-- A value of the integer type `t`. -/
structure FixedInt (t : IntType) where
  val : Int
  fits : t.Fits val
deriving DecidableEq

namespace FixedInt

variable {t : IntType}

@[ext] theorem ext {x y : FixedInt t} (h : x.val = y.val) : x = y := by
  cases x
  cases y
  cases h
  rfl

theorem val_inj {x y : FixedInt t} : x.val = y.val ↔ x = y :=
  ⟨ext, congrArg val⟩

/-- The value of the type that equals `v`, if there is one. -/
def ofInt? (v : Int) : Option (FixedInt t) :=
  if h : t.Fits v then some ⟨v, h⟩ else none

theorem ofInt?_eq_some_iff {v : Int} {x : FixedInt t} : ofInt? v = some x ↔ x.val = v := by
  unfold ofInt?
  split
  · rename_i h
    rw [Option.some.injEq]
    exact ⟨fun e => e ▸ rfl, fun e => ext e.symm⟩
  · rename_i h
    constructor
    · intro e
      cases e
    · intro e
      exact absurd (e ▸ x.fits) h

theorem ofInt?_eq_none_iff {v : Int} : (ofInt? v : Option (FixedInt t)) = none ↔ ¬ t.Fits v := by
  unfold ofInt?
  split <;> simp_all

instance : OfNat (FixedInt t) 0 := ⟨⟨0, t.fits_zero⟩⟩
instance : OfNat (FixedInt t) 1 := ⟨⟨1, t.fits_one⟩⟩

@[simp] theorem val_zero : (0 : FixedInt t).val = 0 := rfl
@[simp] theorem val_one : (1 : FixedInt t).val = 1 := rfl

instance : LE (FixedInt t) := ⟨fun x y => x.val ≤ y.val⟩
instance : LT (FixedInt t) := ⟨fun x y => x.val < y.val⟩

theorem le_def {x y : FixedInt t} : x ≤ y ↔ x.val ≤ y.val := Iff.rfl
theorem lt_def {x y : FixedInt t} : x < y ↔ x.val < y.val := Iff.rfl

instance (x y : FixedInt t) : Decidable (x ≤ y) := inferInstanceAs (Decidable (x.val ≤ y.val))
instance (x y : FixedInt t) : Decidable (x < y) := inferInstanceAs (Decidable (x.val < y.val))

instance : Min (FixedInt t) := ⟨fun x y => if x ≤ y then x else y⟩
instance : Max (FixedInt t) := ⟨fun x y => if x ≤ y then y else x⟩

@[simp] theorem val_min (x y : FixedInt t) : (min x y).val = min x.val y.val := by
  change (if x ≤ y then x else y).val = min x.val y.val
  simp only [le_def]
  split <;> omega

@[simp] theorem val_max (x y : FixedInt t) : (max x y).val = max x.val y.val := by
  change (if x ≤ y then y else x).val = max x.val y.val
  simp only [le_def]
  split <;> omega

/-- Decimal digits, after a minus sign for a negative value. -/
instance : ToString (FixedInt t) := ⟨fun x => toString x.val⟩

theorem toString_def (x : FixedInt t) : toString x = toString x.val := rfl

end FixedInt

/-! ## Bounds -/

/-- The integer types that bounds of an interval may have. -/
inductive BoundType where
  | int8
  | int16
  | int32
  | int64
deriving DecidableEq

namespace BoundType

/-- The bound type of a machine word. -/
abbrev word : BoundType := int64

def size : BoundType → StorageSize
  | int8 => .bits8
  | int16 => .bits16
  | int32 => .bits32
  | int64 => .bits64

abbrev intType (b : BoundType) : IntType := .signed b.size

def bits (b : BoundType) : Nat := b.size.bits

theorem wide_fits_least (b : BoundType) : IntType.wide.Fits b.intType.least := by
  cases b <;> decide

theorem wide_fits_greatest (b : BoundType) : IntType.wide.Fits b.intType.greatest := by
  cases b <;> decide

/-- The size of an inverted pair, which is not positive, fits as well. -/
theorem wide_fits_sizes (b : BoundType) :
    IntType.wide.Fits (b.intType.least - b.intType.greatest) ∧
      IntType.wide.Fits (b.intType.greatest - b.intType.least + 1) := by
  cases b <;> decide

theorem least_eq (b : BoundType) : b.intType.least = -b.intType.greatest - 1 := by
  cases b <;> decide

end BoundType

abbrev Bound (b : BoundType) := FixedInt b.intType

namespace Bound

variable {b : BoundType}

theorem fits_wide (x : Bound b) : IntType.wide.Fits x.val :=
  b.wide_fits_least.of_between b.wide_fits_greatest x.fits.1 x.fits.2

/-- The same integer in the wide type. -/
def widen (x : Bound b) : FixedInt .wide := ⟨x.val, x.fits_wide⟩

@[simp] theorem val_widen (x : Bound b) : x.widen.val = x.val := rfl

end Bound

end Bitspan
