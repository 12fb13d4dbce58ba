import BlueDB.Sql.Laws

/-!
# Values and their cells

A column of the engine gets an Iceberg type and an Arrow array. Each cell of the
array is made of one value; a value that the array has no cell for becomes null.
-/

namespace BlueDB.Lakehouse

open Sql (DataType IsI64)

/-- The number `mantissa / 10 ^ scale`. -/
structure Decimal where
  mantissa : ℤ
  scale : ℕ
  deriving DecidableEq

structure Time where
  hour : ℕ
  minute : ℕ
  second : ℕ
  nanosecond : ℕ
  deriving DecidableEq

inductive Value
  | bool (b : Bool)
  | i8 (n : ℤ)
  | i16 (n : ℤ)
  | i32 (n : ℤ)
  | i64 (n : ℤ)
  | i128 (n : ℤ)
  | u8 (n : ℕ)
  | u16 (n : ℕ)
  | u32 (n : ℕ)
  | u64 (n : ℕ)
  | u128 (n : ℕ)
  | f32 (bits : UInt32)
  | f64 (bits : UInt64)
  | decimal (d : Decimal)
  | str (s : List UInt8)
  | bytea (b : List UInt8)
  | inet (text : List UInt8)
  | date (days : ℤ)
  | timestamp (seconds : ℤ) (nanosecond : ℕ)
  | time (t : Time)
  | interval (text : List UInt8)
  | uuid (n : ℕ)
  | map
  | list
  | point (text : List UInt8)
  | null
  deriving DecidableEq

/-- Row keys. The kinds at the end keep only their debug text. -/
inductive Key
  | i8 (n : ℤ)
  | i16 (n : ℤ)
  | i32 (n : ℤ)
  | i64 (n : ℤ)
  | i128 (n : ℤ)
  | u8 (n : ℕ)
  | u16 (n : ℕ)
  | u32 (n : ℕ)
  | u64 (n : ℕ)
  | u128 (n : ℕ)
  | str (s : List UInt8)
  | bytea (b : List UInt8)
  | bool (b : Bool)
  | date (days : ℤ)
  | timestamp (seconds : ℤ) (nanosecond : ℕ)
  | time (t : Time)
  | uuid (n : ℕ)
  | decimal (d : Decimal)
  | other (debug : List UInt8)
  deriving DecidableEq

/-- The key as a value of the equality-delete column. -/
def keyToValue : Key → Value
  | .i8 n => .i8 n
  | .i16 n => .i16 n
  | .i32 n => .i32 n
  | .i64 n => .i64 n
  | .i128 n => .i128 n
  | .u8 n => .u8 n
  | .u16 n => .u16 n
  | .u32 n => .u32 n
  | .u64 n => .u64 n
  | .u128 n => .u128 n
  | .str s => .str s
  | .bytea b => .bytea b
  | .bool b => .bool b
  | .date days => .date days
  | .timestamp seconds nanosecond => .timestamp seconds nanosecond
  | .time t => .time t
  | .uuid n => .uuid n
  | .decimal d => .decimal d
  | .other debug => .str debug

inductive PrimitiveType
  | boolean
  | int
  | long
  | float
  | double
  | decimal (precision scale : ℕ)
  | date
  | time
  | timestamp
  | string
  | uuid
  | binary
  deriving DecidableEq

/-- An Iceberg type. The types inside a list or a map are left out. -/
inductive IcebergType
  | primitive (p : PrimitiveType)
  | list
  | map
  deriving DecidableEq

/-- Lists and maps have no primitive type. -/
def icebergPrimitive : DataType → Option PrimitiveType
  | .boolean => some .boolean
  | .int8 | .int16 | .int32 => some .int
  | .int => some .long
  | .int128 | .uint128 => some (.decimal 38 0)
  | .uint8 | .uint16 => some .int
  | .uint32 => some .long
  | .uint64 => some (.decimal 20 0)
  | .float32 => some .float
  | .float => some .double
  | .text => some .string
  | .bytea => some .binary
  | .date => some .date
  | .time => some .time
  | .timestamp => some .timestamp
  | .uuid => some .uuid
  | .decimal => some (.decimal 38 18)
  | .inet | .interval | .point => some .string
  | .map | .list => none

def icebergType (dt : DataType) : IcebergType :=
  match icebergPrimitive dt with
  | some p => .primitive p
  | none => if dt = .list then .list else .map

inductive ArrowType
  | boolean
  | int32
  | int64
  | float32
  | float64
  | utf8
  | largeBinary
  | decimal128 (precision scale : ℕ)
  | date32
  | timestampMicrosecond
  | time64Microsecond
  | fixedSizeBinary16
  | list
  | map
  deriving DecidableEq

def arrowType : IcebergType → ArrowType
  | .primitive .boolean => .boolean
  | .primitive .int => .int32
  | .primitive .long => .int64
  | .primitive .float => .float32
  | .primitive .double => .float64
  | .primitive (.decimal precision scale) => .decimal128 precision scale
  | .primitive .date => .date32
  | .primitive .time => .time64Microsecond
  | .primitive .timestamp => .timestampMicrosecond
  | .primitive .string => .utf8
  | .primitive .uuid => .fixedSizeBinary16
  | .primitive .binary => .largeBinary
  | .list => .list
  | .map => .map

/-- A cell that is not null. -/
inductive Cell
  | bool (b : Bool)
  | int (n : ℤ)
  | float32 (bits : UInt32)
  | float64 (bits : UInt64)
  | text (s : List UInt8)
  | bytes (b : List UInt8)
  | decimal (mantissa : ℤ) (scale : ℕ)
  | date (days : ℤ)
  | timestamp (micros : ℤ)
  | time (micros : ℕ)
  | uuid (bytes : List UInt8)
  deriving DecidableEq

instance lawfulBEqCell : LawfulBEq (Option Cell) := inferInstance

def toI32 : Value → Option ℤ
  | .i8 n | .i16 n | .i32 n => some n
  | .u8 n | .u16 n => some n
  | _ => none

def toI64 : Value → Option ℤ
  | .i8 n | .i16 n | .i32 n | .i64 n => some n
  | .u8 n | .u16 n | .u32 n => some n
  | _ => none

/-- An unsigned 128-bit number read as a signed one. -/
def asI128 (n : ℕ) : ℤ := if n < 2 ^ 127 then n else n - 2 ^ 128

/-- A single-precision float as a double-precision one. -/
def f32AsF64 (bits : UInt32) : UInt64 :=
  let sign := (bits >>> 31).toUInt64 <<< 63
  let exponent := (bits >>> 23 &&& 0xFF).toUInt64
  let fraction := (bits &&& 0x7FFFFF).toUInt64
  if exponent = 0xFF then sign ||| (0x7FF : UInt64) <<< 52 ||| fraction <<< 29
  else if exponent ≠ 0 then sign ||| (exponent + 896) <<< 52 ||| fraction <<< 29
  else if fraction = 0 then sign
  else
    -- a subnormal number: the leading one moves out of the fraction
    let top := fraction.toNat.log2
    sign ||| UInt64.ofNat (top + 874) <<< (52 : UInt64) |||
      (fraction <<< UInt64.ofNat (52 - top) &&& (0xFFFFFFFFFFFFF : UInt64))

/-- The number, if it is a signed 64-bit one. -/
def checkedI64 (n : ℤ) : Option ℤ := if IsI64 n then some n else none

/-- Microseconds since 1970. -/
def timestampMicros (seconds : ℤ) (nanosecond : ℕ) : Option ℤ :=
  (checkedI64 (seconds * 1000000)).bind fun s => checkedI64 (s + nanosecond / 1000)

/-- Microseconds since midnight. -/
def timeMicros (t : Time) : ℕ :=
  t.hour * 3600000000 + t.minute * 60000000 + t.second * 1000000 + t.nanosecond / 1000

def decimalMantissa (rescale : Decimal → ℕ → Decimal) (scale : ℕ) : Value → Option ℤ
  | .decimal d => some (rescale d scale).mantissa
  | .u64 n => some (n * 10 ^ scale)
  | .u128 n => some (asI128 n * 10 ^ scale)
  | .i128 n => some (n * 10 ^ scale)
  | _ => none

/-- Whether an array of the type is built at all. -/
def ArrowType.supported : ArrowType → Bool
  | .list | .map => false
  | _ => true

def arrowCell (rescale : Decimal → ℕ → Decimal) : ArrowType → Value → Option Cell
  | .boolean, .bool b => some (.bool b)
  | .int32, v => (toI32 v).map .int
  | .int64, v => (toI64 v).map .int
  | .float32, .f32 bits => some (.float32 bits)
  | .float64, .f64 bits => some (.float64 bits)
  | .float64, .f32 bits => some (.float64 (f32AsF64 bits))
  | .utf8, .str s => some (.text s)
  | .largeBinary, .bytea b => some (.bytes b)
  | .decimal128 _ scale, v => (decimalMantissa rescale scale v).map (.decimal · scale)
  | .date32, .date days => some (.date days)
  | .timestampMicrosecond, .timestamp seconds nanosecond =>
    (timestampMicros seconds nanosecond).map .timestamp
  | .time64Microsecond, .time t => some (.time (timeMicros t))
  | .fixedSizeBinary16, .uuid n => some (.uuid (beBytes 16 n))
  | _, _ => none

/-- The cell stands for the value: the same number, text, bytes or time. -/
def Represents : Value → Option Cell → Prop
  | .null, none => True
  | .bool b, some (.bool b') => b = b'
  | .i8 n, some (.int m) | .i16 n, some (.int m) | .i32 n, some (.int m)
  | .i64 n, some (.int m) => n = m
  | .u8 n, some (.int m) | .u16 n, some (.int m) | .u32 n, some (.int m) => (n : ℤ) = m
  | .i128 n, some (.decimal m scale) => m = n * 10 ^ scale
  | .u64 n, some (.decimal m scale) | .u128 n, some (.decimal m scale) => m = n * 10 ^ scale
  | .f32 bits, some (.float32 bits') => bits = bits'
  | .f64 bits, some (.float64 bits') => bits = bits'
  | .f32 bits, some (.float64 bits') => f32AsF64 bits = bits'
  | .decimal d, some (.decimal m scale) => m * 10 ^ d.scale = d.mantissa * 10 ^ scale
  | .str s, some (.text s') => s = s'
  | .bytea b, some (.bytes b') => b = b'
  | .inet text, some (.text s) | .interval text, some (.text s)
  | .point text, some (.text s) => text = s
  | .date days, some (.date days') => days = days'
  | .timestamp seconds nanosecond, some (.timestamp micros) =>
    micros * 1000 = seconds * 1000000000 + nanosecond
  | .time t, some (.time micros) =>
    micros * 1000 =
      ((t.hour * 60 + t.minute) * 60 + t.second) * 1000000000 + t.nanosecond
  | .uuid n, some (.uuid bytes) => bytes = beBytes 16 n
  | _, _ => False

/-- Numbers of a signed type of `w` bits. -/
def signed (w : ℕ) (n : ℤ) : Bool := decide (-2 ^ (w - 1) ≤ n ∧ n < 2 ^ (w - 1))

/-- Numbers of an unsigned type of `w` bits. -/
def unsigned (w n : ℕ) : Bool := decide (n < 2 ^ w)

def HasType : DataType → Value → Bool
  | _, .null => true
  | .boolean, .bool _ => true
  | .int8, .i8 n => signed 8 n
  | .int16, .i16 n => signed 16 n
  | .int32, .i32 n => signed 32 n
  | .int, .i64 n => signed 64 n
  | .int128, .i128 n => signed 128 n
  | .uint8, .u8 n => unsigned 8 n
  | .uint16, .u16 n => unsigned 16 n
  | .uint32, .u32 n => unsigned 32 n
  | .uint64, .u64 n => unsigned 64 n
  | .uint128, .u128 n => unsigned 128 n
  | .float32, .f32 _ => true
  | .float, .f64 _ => true
  | .text, .str _ => true
  | .bytea, .bytea _ => true
  | .inet, .inet _ => true
  | .date, .date _ => true
  | .timestamp, .timestamp _ _ => true
  | .time, .time _ => true
  | .interval, .interval _ => true
  | .uuid, .uuid _ => true
  | .map, .map => true
  | .list, .list => true
  | .decimal, .decimal _ => true
  | .point, .point _ => true
  | _, _ => false

/-- The value keeps what it stands for in a column of its type. Addresses, intervals
and points have no cell, times are cut to microseconds, the upper half of the
unsigned 128-bit numbers turns negative, and a decimal must take 18 digits. -/
def Faithful (rescale : Decimal → ℕ → Decimal) : Value → Prop
  | .inet _ | .interval _ | .point _ | .map | .list => False
  | .u128 n => n < 2 ^ 127
  | .timestamp seconds nanosecond => 1000 ∣ nanosecond ∧ IsI64 (seconds * 1000000) ∧
    IsI64 (seconds * 1000000 + nanosecond / 1000)
  | .time t => 1000 ∣ t.nanosecond
  | .decimal d => (rescale d 18).mantissa * 10 ^ d.scale = d.mantissa * 10 ^ 18
  | _ => True

instance (rescale : Decimal → ℕ → Decimal) (v : Value) : Decidable (Faithful rescale v) := by
  cases v <;> unfold Faithful <;> infer_instance

variable {rescale : Decimal → ℕ → Decimal} {dt : DataType} {v : Value}

theorem timestampMicros_eq {seconds : ℤ} {nanosecond : ℕ} :
    timestampMicros seconds nanosecond =
      if IsI64 (seconds * 1000000) ∧ IsI64 (seconds * 1000000 + nanosecond / 1000) then
        some (seconds * 1000000 + nanosecond / 1000)
      else none := by
  unfold timestampMicros checkedI64
  by_cases hs : IsI64 (seconds * 1000000)
  · simp [hs]
  · simp [hs]

theorem represents_arrowCell (h : HasType dt v = true) :
    Represents v (arrowCell rescale (arrowType (icebergType dt)) v) ↔ Faithful rescale v := by
  cases v with
  | null => cases dt <;> simp [icebergType, icebergPrimitive, arrowType, arrowCell, toI32, toI64,
      decimalMantissa, Represents, Faithful]
  | timestamp seconds nanosecond =>
    obtain rfl : dt = .timestamp := by cases dt <;> first | rfl | exact absurd h Bool.false_ne_true
    change Represents _ ((timestampMicros seconds nanosecond).map Cell.timestamp) ↔ _
    rw [timestampMicros_eq]
    split_ifs with hrange
    · simp only [Option.map_some, Represents, Faithful, hrange, and_self, and_true]
      omega
    · simp only [Option.map_none, Represents, Faithful, hrange, and_false]
  | time t =>
    obtain rfl : dt = .time := by cases dt <;> first | rfl | exact absurd h Bool.false_ne_true
    change Represents (Value.time t) (some (.time (timeMicros t))) ↔ _
    simp only [Represents, timeMicros, Faithful]
    omega
  | u128 n =>
    obtain rfl : dt = .uint128 := by cases dt <;> first | rfl | exact absurd h Bool.false_ne_true
    change (asI128 n * 10 ^ 0 = (n : ℤ) * 10 ^ 0) ↔ n < 2 ^ 127
    unfold asI128
    split_ifs with hn
    · simp only [hn]
    · simp only [hn, iff_false]
      omega
  | _ =>
    cases dt <;> first | exact absurd h Bool.false_ne_true | simp [icebergType, icebergPrimitive,
      arrowType, arrowCell, toI32, toI64, decimalMantissa, Represents, Faithful]

/-- The key of an integer, a text or a byte string. -/
def keyOfValue : Value → Option Key
  | .i8 n => some (.i8 n)
  | .i16 n => some (.i16 n)
  | .i32 n => some (.i32 n)
  | .i64 n => some (.i64 n)
  | .i128 n => some (.i128 n)
  | .u8 n => some (.u8 n)
  | .u16 n => some (.u16 n)
  | .u32 n => some (.u32 n)
  | .u64 n => some (.u64 n)
  | .u128 n => some (.u128 n)
  | .str s => some (.str s)
  | .bytea b => some (.bytea b)
  | _ => none

/-- The integer types, TEXT, and BYTEA, which holds the keys of several columns. -/
def IsKeyType : DataType → Bool
  | .int8 | .int16 | .int32 | .int | .int128 => true
  | .uint8 | .uint16 | .uint32 | .uint64 | .uint128 => true
  | .text | .bytea => true
  | _ => false

theorem keyToValue_of_keyOfValue {key : Key} (h : keyOfValue v = some key) :
    keyToValue key = v := by
  cases v <;> cases h <;> rfl

theorem asI128_inj {m n : ℕ} (hm : m < 2 ^ 128) (hn : n < 2 ^ 128) (h : asI128 m = asI128 n) :
    m = n := by
  unfold asI128 at h
  split_ifs at h <;> omega

theorem arrowCell_inj {v' : Value} (hdt : IsKeyType dt = true) (h : HasType dt v = true)
    (h' : HasType dt v' = true) (hnull : v ≠ .null) (hnull' : v' ≠ .null)
    (hcell : arrowCell rescale (arrowType (icebergType dt)) v =
      arrowCell rescale (arrowType (icebergType dt)) v') : v = v' := by
  cases dt <;> first
    | exact absurd hdt Bool.false_ne_true
    | cases v <;> first
      | exact absurd h Bool.false_ne_true
      | exact absurd rfl hnull
      | cases v' <;> first
        | exact absurd h' Bool.false_ne_true
        | exact absurd rfl hnull'
        | simpa [icebergType, icebergPrimitive, arrowType, arrowCell, toI32, toI64,
            decimalMantissa] using hcell
        | skip
  case uint128.u128.u128 n n' =>
    have hmantissa : asI128 n * 10 ^ 0 = asI128 n' * 10 ^ 0 := by
      simpa [icebergType, icebergPrimitive, arrowType, arrowCell, decimalMantissa] using hcell
    have hnumber : asI128 n = asI128 n' := by simpa using hmantissa
    rw [asI128_inj (of_decide_eq_true h) (of_decide_eq_true h') hnumber]

end BlueDB.Lakehouse
