import Mathlib.Algebra.Order.Ring.Unbundled.Rat
import Mathlib.Algebra.Ring.Rat

/-! What the fitting scripts and the ad hoc predictors share: the data types, the layouts of a parameter
file and the Python errors. Numbers are exact rationals. -/
namespace GraphEngine.Nddma

inductive Dtype where
  | int8
  | int16
  | int32
  | int64
  deriving DecidableEq, Repr

def Dtype.all : List Dtype := [.int8,.int16,.int32,.int64]

/-- `DTYPE_SIZES`. -/
def Dtype.size : Dtype → Int
  | .int8 => 1
  | .int16 => 2
  | .int32 => 4
  | .int64 => 8

def Dtype.name : Dtype → String
  | .int8 => "int8_t"
  | .int16 => "int16_t"
  | .int32 => "int32_t"
  | .int64 => "int64_t"

/-- The text of a `dtype` column. -/
inductive DtypeName where
  | known (dtype : Dtype)
  | unknown (text : String)
  deriving DecidableEq, Repr

inductive PyError where
  | valueError (message : String)
  | keyError (key : String)
  | zeroDivisionError
  deriving DecidableEq, Repr

def div (x y : ℚ) : Except PyError ℚ := if y = 0 then .error .zeroDivisionError else .ok (x / y)

/-- `//` on Python integers. -/
def floorDiv (x y : Int) : Except PyError Int := if y = 0 then .error .zeroDivisionError else .ok (x.fdiv y)

def subscript {α : Type} (key : String) : Option α → Except PyError α
  | some value => .ok value
  | none => .error (.keyError key)

structure BaseCoeffs where
  t1 : ℚ
  h1 : ℚ
  t2 : ℚ
  h2 : ℚ
  deriving DecidableEq, Repr

/-- `T_` and `H_` with the suffix of a core count. -/
def BaseCoeffs.pick (coeffs : BaseCoeffs) (blockDim : Int) : ℚ × ℚ :=
  if blockDim ≤ 2 then (coeffs.t1,coeffs.h1) else (coeffs.t2,coeffs.h2)

inductive CoreBase where
  | sized (coeffs : BaseCoeffs)
  | rated (alpha tBytesPerCycle : ℚ)
  deriving DecidableEq, Repr

/-- The two layouts of a `base` section: one with `T_1`, or one for each range of core counts. -/
inductive BaseSection where
  | flat (coeffs : BaseCoeffs)
  | perCore (le2 gt2 : CoreBase)
  deriving DecidableEq, Repr

structure NG where
  a1 : ℚ
  a2 : ℚ
  deriving DecidableEq, Repr

structure NGU where
  b1 : ℚ
  b2 : ℚ
  b3 : ℚ
  b4 : ℚ
  deriving DecidableEq, Repr

structure Rho where
  c1 : ℚ
  c2 : ℚ
  c3 : ℚ
  c4 : ℚ
  deriving DecidableEq, Repr

/-- The sections under one data type; the last one is the older spelling without sections. -/
structure DtypeParams where
  base : Option BaseSection
  nG : Option NG := none
  nGU : Option NGU := none
  rho : Option Rho := none
  plain : Option (NG × (ℚ × ℚ)) := none

/-- The `parameters` of a model file. -/
abbrev ParameterSet := Dtype → Option DtypeParams

def ParameterSet.get (parameters : ParameterSet) : DtypeName → Except PyError DtypeParams
  | .known dtype => subscript dtype.name (parameters dtype)
  | .unknown text => .error (.keyError text)

def DtypeName.size : DtypeName → Except PyError Int
  | .known dtype => .ok dtype.size
  | .unknown text => .error (.keyError text)

/-- One line of a measurement file: columns that are missing or empty are `none`. -/
structure Row where
  dim : Option Nat
  dtype : DtypeName
  blockDim : Option Int
  outputDims : List Int
  inputStride : List Int
  outputStride : List Int
  -- the metric columns in the order in which they are tried, `actual_y` first
  actualY : Option ℚ := none
  metrics : List (Option ℚ) := []
  repeat_ : Option ℚ := none
  deriving DecidableEq, Repr

/-- `parse_tuple`: the number of parts is checked. -/
def parseTuple (parts : List Int) (expected : Nat) : Except PyError (List Int) :=
  if parts.length ≠ expected then .error (.valueError s!"expected {expected} values")
  else .ok parts

/-- `product_int`, and `product` of the predictors. -/
def productInt (values : List Int) : Int := values.foldl (· * ·) 1

end GraphEngine.Nddma
