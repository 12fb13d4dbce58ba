import BlueDB.Sql.Database

/-!
# What the store relies on in the engine

An expression sees the row only through the columns it names, and integer row
keys are told apart by their bytes. The engine of integer columns at the end
satisfies the laws.
-/

namespace BlueDB.Sql

/-- Numbers of a signed 64-bit type. -/
def IsI64 (n : ℤ) : Prop := -2 ^ 63 ≤ n ∧ n < 2 ^ 63

instance (n : ℤ) : Decidable (IsI64 n) := inferInstanceAs (Decidable (_ ∧ _))

structure Lawful (G : Engine) : Prop where
  evaluate_congr : ∀ {e : G.Expr} {columns columns' : List Name} {values values' : List G.Value},
    (∀ c ∈ G.mentions e, (columns.zip values).lookup c = (columns'.zip values').lookup c) →
      G.evaluate (some ⟨some columns, .vec values⟩) e =
        G.evaluate (some ⟨some columns', .vec values'⟩) e
  asI64_i64 : ∀ {n : ℤ}, IsI64 n → G.asI64 (G.i64 n) = some n
  i64_bytes_inj : ∀ {m n : ℤ}, IsI64 m → IsI64 n → ∀ {bytes : List UInt8},
    G.toCmpBeBytes (G.i64 m) = .ok bytes → G.toCmpBeBytes (G.i64 n) = .ok bytes → m = n

/-- The order of the keys of one type, as the operators of the engine compare
them, and the order of their comparable bytes. Null compares with nothing and
its bytes come last. -/
structure KeyOrder (G : Engine) where
  compare : G.Key → G.Key → Option Ordering
  compare_bytes : ∀ {a b : G.Key} {o : Ordering} {x y : List UInt8}, compare a b = some o →
    G.toCmpBeBytes a = .ok x → G.toCmpBeBytes b = .ok y → compareBytes x y = o
  eq_of_compare : ∀ {a b : G.Key}, compare a b = some .eq → a = b
  comparable_trans : ∀ {a b c : G.Key}, (compare a c).isSome = true → (compare b c).isSome = true →
    (compare a b).isSome = true
  compare_none : ∀ a : G.Key, compare G.noneKey a = none
  none_last : ∀ {a : G.Key} {x y : List UInt8}, a ≠ G.noneKey → G.toCmpBeBytes a = .ok x →
    G.toCmpBeBytes G.noneKey = .ok y → x < y

namespace Ints

inductive Value
  | null
  | int (n : ℤ)
  deriving DecidableEq

inductive Key
  | none
  | i64 (n : ℤ)
  deriving DecidableEq

/-- A column or a literal. -/
inductive Expr
  | column (c : Name)
  | literal (v : Value)
  deriving DecidableEq

/-- The sign and the big-endian bytes behind a tag that sorts null last. -/
def toCmpBeBytes : Key → List UInt8
  | .none => [0x01]
  | .i64 n => 0x00 :: (if 0 ≤ n then 0x01 else 0x00) :: beBytes 8 (n % 2 ^ 64).toNat

def keyOf : Value → Key
  | .null => .none
  | .int n => .i64 n

def asI64 : Key → Option ℤ
  | .none => none
  | .i64 n => some n

def evaluate : Option (Context Value) → Expr → Except String Value
  | _, .literal v => .ok v
  | some ⟨some columns, .vec values⟩, .column c =>
    match (columns.zip values).lookup c with
    | some v => .ok v
    | none => .error "identifier not found"
  | _, .column _ => .error "identifier not found"

def mentions : Expr → List Name
  | .column c => [c]
  | .literal _ => []

def engine : Engine where
  Key := Key
  Value := Value
  Expr := Expr
  decKey := inferInstance
  decValue := inferInstance
  decExpr := inferInstance
  null := .null
  noneKey := .none
  i64 := .i64
  asI64 := asI64
  keyOf v := .ok (keyOf v)
  toCmpBeBytes k := .ok (toCmpBeBytes k)
  displayKey
    | .none => "None"
    | .i64 n => toString n
  evaluate := evaluate
  mentions := mentions

theorem evaluate_column_congr {columns columns' : List Name} {values values' : List Value}
    {c : Name}
    (h : (columns.zip values).lookup c = (columns'.zip values').lookup c) :
    evaluate (some ⟨some columns, .vec values⟩) (.column c) =
      evaluate (some ⟨some columns', .vec values'⟩) (.column c) := by
  simp only [evaluate, h]

theorem lawful : Lawful engine where
  evaluate_congr := by
    intro e columns columns' values values' h
    cases e with
    | literal v => rfl
    | column c => exact evaluate_column_congr (h c (List.mem_singleton_self c))
  asI64_i64 := by
    intro n _
    rfl
  i64_bytes_inj := by
    intro m n hm hn bytes hbm hbn
    have heq : toCmpBeBytes (.i64 m) = toCmpBeBytes (.i64 n) :=
      (Except.ok.inj hbm).trans (Except.ok.inj hbn).symm
    simp only [toCmpBeBytes, List.cons.injEq, true_and] at heq
    have hmod := beBytes_inj (by omega) (by omega) heq.2
    obtain ⟨hm1, hm2⟩ := hm
    obtain ⟨hn1, hn2⟩ := hn
    omega

def compare : Key → Key → Option Ordering
  | .i64 m, .i64 n => if IsI64 m ∧ IsI64 n then some (compareOfLessAndEq m n) else none
  | _, _ => none

theorem compare_isSome {a b : Key} :
    (compare a b).isSome = true ↔ (∃ m, a = .i64 m ∧ IsI64 m) ∧ ∃ n, b = .i64 n ∧ IsI64 n := by
  cases a <;> cases b <;> simp [compare]

theorem exists_of_compare {a b : Key} {o : Ordering} (h : compare a b = some o) :
    ∃ m n, a = .i64 m ∧ b = .i64 n ∧ IsI64 m ∧ IsI64 n ∧ compareOfLessAndEq m n = o := by
  have hsome : (compare a b).isSome = true := by
    rw [h]
    rfl
  obtain ⟨⟨m, rfl, hm⟩, n, rfl, hn⟩ := compare_isSome.mp hsome
  simp only [compare, hm, hn, and_self, if_true, Option.some.injEq] at h
  exact ⟨m, n, rfl, rfl, hm, hn, h⟩

theorem toCmpBeBytes_lt {m n : ℤ} (hm : IsI64 m) (hn : IsI64 n) (h : m < n) :
    toCmpBeBytes (.i64 m) < toCmpBeBytes (.i64 n) := by
  obtain ⟨hm1, hm2⟩ := hm
  obtain ⟨hn1, hn2⟩ := hn
  unfold toCmpBeBytes
  rw [List.cons_lt_cons_iff]
  refine Or.inr ⟨rfl, ?_⟩
  rw [List.cons_lt_cons_iff]
  by_cases hsign : (0 ≤ m) = (0 ≤ n)
  · right
    constructor
    · simp only [hsign]
    · apply beBytes_lt
      rw [Nat.mod_eq_of_lt (by omega), Nat.mod_eq_of_lt (by omega)]
      by_cases hpos : 0 ≤ m
      · have hpos' : 0 ≤ n := hsign ▸ hpos
        omega
      · have hneg : ¬0 ≤ n := hsign ▸ hpos
        omega
  · left
    have hneg : ¬0 ≤ m := fun hpos => hsign (by simp [hpos, hpos.trans h.le])
    have hpos : 0 ≤ n := by
      by_contra hneg'
      exact hsign (by simp [hneg, hneg'])
    rw [if_neg hneg, if_pos hpos]
    decide

def keyOrder : KeyOrder engine where
  compare := compare
  compare_bytes := by
    intro a b o x y hcompare hx hy
    obtain rfl := Except.ok.inj hx
    obtain rfl := Except.ok.inj hy
    obtain ⟨m, n, rfl, rfl, hm, hn, rfl⟩ := exists_of_compare hcompare
    unfold compareOfLessAndEq
    split_ifs with hlt heq
    · exact compareBytes_eq_lt.mpr (toCmpBeBytes_lt hm hn hlt)
    · exact compareBytes_eq_eq.mpr (by rw [heq])
    · exact compareBytes_eq_gt.mpr (toCmpBeBytes_lt hn hm (by omega))
  eq_of_compare := by
    intro a b hcompare
    obtain ⟨m, n, rfl, rfl, -, -, heq⟩ := exists_of_compare hcompare
    unfold compareOfLessAndEq at heq
    split_ifs at heq with hlt hsame
    rw [hsame]
  comparable_trans := by
    intro a b c ha hb
    exact compare_isSome.mpr ⟨(compare_isSome.mp ha).1, (compare_isSome.mp hb).1⟩
  compare_none := by
    intro a
    cases a <;> rfl
  none_last := by
    intro a x y ha hx hy
    obtain rfl := Except.ok.inj hx
    obtain rfl := Except.ok.inj hy
    cases a with
    | none => exact absurd rfl ha
    | i64 n =>
      change toCmpBeBytes (.i64 n) < toCmpBeBytes .none
      simp only [toCmpBeBytes]
      rw [List.cons_lt_cons_iff]
      exact Or.inl (by decide)

instance neZeroTwo : NeZero 2 := ⟨by decide⟩

instance neZeroThree : NeZero 3 := ⟨by decide⟩

def single (b : UInt8) : Name := ⟨[b], by simp⟩

/-- The names `t`, `u`, `x`, `i`, `a` and `b`. -/
def t : Name := single 0x74
def u : Name := single 0x75
def x : Name := single 0x78
def i : Name := single 0x69
def a : Name := single 0x61
def b : Name := single 0x62

/-- `CREATE TABLE t (i INT PRIMARY KEY, a INT)`. -/
def createTable : Stmt engine :=
  .createTable t (some [⟨i, .int, false, none, true⟩, ⟨a, .int, true, none, false⟩])

/-- `CREATE INDEX x ON t (a)`. -/
def createIndex : Stmt engine := .createIndex t x (Expr.column a) none

def row (values : List ℤ) : DataRow Value := .vec (values.map Value.int)

/-- `INSERT INTO t VALUES (...)`. -/
def insert (values : List ℤ) : Stmt engine := .insert t [row values]

/-- `ALTER TABLE t ADD COLUMN b INT DEFAULT n`. -/
def addColumn (n : ℤ) : Stmt engine :=
  .addColumn t ⟨b, .int, true, some (Expr.literal (.int n)), false⟩

/-- A column is added and the key renamed inside a transaction, then the table. -/
def altered : List (Op engine) :=
  [.exec createTable, .exec createIndex, .exec (insert [1, 10]), .begin, .exec (addColumn 99),
    .exec (insert [2, 20, 30]), .exec (.renameColumn t i u), .commit, .exec (.renameTable t u)]

end Ints
end BlueDB.Sql
