import BlueDB.Keyspace
import BlueDB.Sql.CompositeKeys

/-!
# The byte ranges of comparisons

A scan of an index or of the primary key with a comparison reads a half-open range of
bytes. The range has the entries, or the rows, whose key compares as the operator says with
the key of the comparison, and nothing else.
-/

namespace BlueDB.Keyspace

open Sql (Name Engine IndexOperator KeyVariants)

variable {G : Engine}

/-- The range of a scan of an index. The entries of one value have its bytes, escaped and
ended, in front of the primary key. -/
def indexRange (tenant : Name) (id : UInt64) (index : Name) (op : IndexOperator) (key : G.Key) :
    Except String (Bytes × Option Bytes) := do
  let full := indexPrefix tenant id index
  let fullEnd := prefixUpperBound full
  let value ← indexValuePrefix tenant id index key
  let valueEnd := prefixUpperBound value
  match op with
  | .eq => return (value, valueEnd.or fullEnd)
  | .lt => return (full, some value)
  | .ltEq => return (full, valueEnd.or fullEnd)
  | .gt => return (valueEnd.getD full, fullEnd)
  | .gtEq => return (value, fullEnd)

/-- The range of a scan of the primary key, whose bytes end the key of a row. -/
def pkRange (tenant : Name) (id : UInt64) (op : IndexOperator) (key : G.Key) :
    Except String (Bytes × Option Bytes) := do
  let full := dataPrefix tenant id
  let fullEnd := prefixUpperBound full
  let bytes ← G.toCmpBeBytes key
  let kv := full ++ bytes
  let kvSucc := Sql.keySuccessor kv
  match op with
  | .eq => return (kv, some kvSucc)
  | .gtEq => return (kv, fullEnd)
  | .gt => return (kvSucc, fullEnd)
  | .ltEq => return (full, some kvSucc)
  | .lt => return (full, some kv)

/-- Whether a key compares with that of the comparison as the operator says. -/
def satisfies (V : KeyVariants G) : IndexOperator → G.Key → G.Key → Prop
  | .eq, a, k => a = k
  | .lt, a, k => V.lt a k
  | .ltEq, a, k => V.lt a k ∨ a = k
  | .gt, a, k => V.lt k a
  | .gtEq, a, k => V.lt k a ∨ a = k

/-- The same of their bytes. -/
def bytesSatisfy : IndexOperator → Bytes → Bytes → Prop
  | .eq, x, y => x = y
  | .lt, x, y => x < y
  | .ltEq, x, y => x < y ∨ x = y
  | .gt, x, y => y < x
  | .gtEq, x, y => y < x ∨ x = y

theorem bytesSatisfy_iff {V : KeyVariants G} {a k : G.Key} {x y : Bytes} (op : IndexOperator)
    (hsame : V.Same a k) (ha : G.toCmpBeBytes a = .ok x)
    (hk : G.toCmpBeBytes k = .ok y) : bytesSatisfy op x y ↔ satisfies V op a k := by
  have heq : x = y ↔ a = k := by
    constructor
    · rintro rfl
      exact V.bytes_inj hsame ha hk
    · rintro rfl
      exact Except.ok.inj (ha.symm.trans hk)
  have hlt := V.bytes_lt hsame ha hk
  have hgt := V.bytes_lt (V.symm hsame) hk ha
  cases op with
  | eq => exact heq
  | lt => exact hlt
  | ltEq => exact or_congr hlt heq
  | gt => exact hgt
  | gtEq => exact or_congr hgt heq

section Index

variable {tenant : Name} {id : UInt64} {index : Name} {op : IndexOperator} {key value pk : G.Key}
  {start x b v p : Bytes} {stop : Option Bytes}

theorem indexEntryKey_eq_ok :
    indexEntryKey tenant id index value pk = .ok x ↔ ∃ v p, G.toCmpBeBytes value = .ok v ∧
      G.toCmpBeBytes pk = .ok p ∧ x = indexPrefix tenant id index ++ (orderPreserving v ++ p) := by
  unfold indexEntryKey
  cases hv : G.toCmpBeBytes value with
  | error e => simp [bind, Except.bind]
  | ok v => cases hp : G.toCmpBeBytes pk <;> simp [bind, Except.bind, pure, Except.pure, eq_comm]

theorem inRange_indexRange (h : indexRange tenant id index op key = .ok (start, stop)) :
    ∃ b, G.toCmpBeBytes key = .ok b ∧ ∀ x, InRange start stop x ↔
      indexPrefix tenant id index <+: x ∧
        op.Selects (indexPrefix tenant id index ++ orderPreserving b) x := by
  unfold indexRange indexValuePrefix at h
  cases hb : G.toCmpBeBytes key with
  | error e =>
    rw [hb] at h
    cases h
  | ok b =>
    refine ⟨b, rfl, fun x => ?_⟩
    rw [hb] at h
    obtain ⟨e, he⟩ := exists_orderPreserving_upperBound b
    have hend := prefixUpperBound_append (p := indexPrefix tenant id index) he
    have hvalue : indexPrefix tenant id index <+:
        indexPrefix tenant id index ++ orderPreserving b := List.prefix_append ..
    have hbound : indexPrefix tenant id index <+: indexPrefix tenant id index ++ e :=
      List.prefix_append ..
    have hlt : x < indexPrefix tenant id index ++ e ↔
        x < indexPrefix tenant id index ++ orderPreserving b ∨
          indexPrefix tenant id index ++ orderPreserving b <+: x := by
      rw [← lt_prefixUpperBound_iff, hend]
      simp
    unfold IndexOperator.Selects
    cases op with
    | eq =>
      obtain ⟨rfl, rfl⟩ := Prod.mk.inj (Except.ok.inj h)
      rw [hend, Option.some_or, ← hend, inRange_prefixUpperBound_iff]
      exact ⟨fun hx => ⟨hvalue.trans hx, hx⟩, fun hx => hx.2⟩
    | lt =>
      obtain ⟨rfl, rfl⟩ := Prod.mk.inj (Except.ok.inj h)
      exact inRange_below_iff hvalue
    | ltEq =>
      obtain ⟨rfl, rfl⟩ := Prod.mk.inj (Except.ok.inj h)
      rw [hend, Option.some_or, inRange_below_iff hbound, hlt]
    | gt =>
      obtain ⟨rfl, rfl⟩ := Prod.mk.inj (Except.ok.inj h)
      rw [hend, Option.getD_some, inRange_from_iff hbound, ← not_lt, hlt]
    | gtEq =>
      obtain ⟨rfl, rfl⟩ := Prod.mk.inj (Except.ok.inj h)
      rw [inRange_from_iff hvalue, ← not_lt]

theorem selects_entry_iff :
    op.Selects (indexPrefix tenant id index ++ orderPreserving b)
      (indexPrefix tenant id index ++ (orderPreserving v ++ p)) ↔ bytesSatisfy op v b := by
  have hlt : indexPrefix tenant id index ++ (orderPreserving v ++ p) <
      indexPrefix tenant id index ++ orderPreserving b ↔ v < b := by
    have h := @orderPreserving_append_lt v b p []
    rw [List.append_nil] at h
    rw [append_lt_append_left, h]
    simp
  have hpre : indexPrefix tenant id index ++ orderPreserving b <+:
      indexPrefix tenant id index ++ (orderPreserving v ++ p) ↔ v = b := by
    rw [List.prefix_append_right_inj]
    constructor
    · rintro ⟨rest, h⟩
      exact (selfDelimiting_orderPreserving _ _ _ _ h).1.symm
    · rintro rfl
      exact List.prefix_append ..
  unfold IndexOperator.Selects bytesSatisfy
  cases op with
  | eq => exact hpre
  | lt => exact hlt
  | ltEq => exact or_congr hlt hpre
  | gt =>
    dsimp only
    rw [hlt, hpre, ← le_iff_lt_or_eq, not_le]
  | gtEq =>
    dsimp only
    rw [hlt, not_lt, le_iff_lt_or_eq, eq_comm]

end Index

section Rows

variable {tenant : Name} {id : UInt64} {op : IndexOperator} {key pk : G.Key} {start x b p : Bytes}
  {stop : Option Bytes}

theorem rowKey_eq_ok : rowKey tenant id pk = .ok x ↔
    ∃ p, G.toCmpBeBytes pk = .ok p ∧ x = dataPrefix tenant id ++ p := by
  unfold rowKey
  cases hp : G.toCmpBeBytes pk <;> simp [bind, Except.bind, pure, Except.pure, eq_comm]

theorem inRange_pkRange (h : pkRange tenant id op key = .ok (start, stop)) :
    ∃ b, G.toCmpBeBytes key = .ok b ∧ ∀ x, InRange start stop x ↔
      dataPrefix tenant id <+: x ∧ bytesSatisfy op x (dataPrefix tenant id ++ b) := by
  unfold pkRange Sql.keySuccessor at h
  cases hb : G.toCmpBeBytes key with
  | error e =>
    rw [hb] at h
    cases h
  | ok b =>
    refine ⟨b, rfl, fun x => ?_⟩
    rw [hb] at h
    have hkv : dataPrefix tenant id <+: dataPrefix tenant id ++ b := List.prefix_append ..
    have hsucc : dataPrefix tenant id <+: dataPrefix tenant id ++ b ++ [0] :=
      hkv.trans (List.prefix_append ..)
    unfold bytesSatisfy
    cases op with
    | eq =>
      obtain ⟨rfl, rfl⟩ := Prod.mk.inj (Except.ok.inj h)
      constructor
      · intro ⟨hge, hlt⟩
        have hle := lt_append_zero_iff.mp (hlt _ rfl)
        obtain rfl := le_antisymm (not_lt.mp hle) hge
        exact ⟨hkv, rfl⟩
      · rintro ⟨-, rfl⟩
        refine ⟨le_refl _, ?_⟩
        rintro e ⟨⟩
        exact lt_append_zero_iff.mpr (lt_irrefl _)
    | lt =>
      obtain ⟨rfl, rfl⟩ := Prod.mk.inj (Except.ok.inj h)
      exact inRange_below_iff hkv
    | ltEq =>
      obtain ⟨rfl, rfl⟩ := Prod.mk.inj (Except.ok.inj h)
      rw [inRange_below_iff hsucc, lt_append_zero_iff, not_lt, le_iff_lt_or_eq]
    | gt =>
      obtain ⟨rfl, rfl⟩ := Prod.mk.inj (Except.ok.inj h)
      rw [inRange_from_iff hsucc, ← not_lt, lt_append_zero_iff, not_not]
    | gtEq =>
      obtain ⟨rfl, rfl⟩ := Prod.mk.inj (Except.ok.inj h)
      rw [inRange_from_iff hkv, le_iff_lt_or_eq, eq_comm (b := x)]

theorem bytesSatisfy_append_iff : bytesSatisfy op (x ++ p) (x ++ b) ↔ bytesSatisfy op p b := by
  unfold bytesSatisfy
  cases op with
  | eq => exact List.append_right_inj x
  | lt => exact append_lt_append_left
  | ltEq | gtEq => exact or_congr append_lt_append_left (List.append_right_inj x)
  | gt => exact append_lt_append_left

end Rows

section Exact

variable {tenant : Name} {id : UInt64} {index : Name} {x : Bytes}

theorem entry_of_isPrefix {tenant' : Name} {r : Record G} (hkey : r.key tenant' = .ok x)
    (hpre : indexPrefix tenant id index <+: x) :
    tenant' = tenant ∧ ∃ value pk, r = .sql (.indexEntry id index value pk) := by
  obtain ⟨htenant, hreads⟩ := @Scan.reads_of_inRange _ (.index id index : Scan G) _ _ _ _ _ _ rfl
    hkey (inRange_prefixUpperBound_iff.mpr hpre)
  refine ⟨htenant, ?_⟩
  cases r with
  | sql r =>
    cases r with
    | indexEntry id' index' value pk =>
      obtain ⟨rfl, rfl⟩ := hreads
      exact ⟨value, pk, rfl⟩
    | _ => exact False.elim hreads
  | ledger r => exact False.elim hreads
  | evidence r => exact False.elim hreads

theorem row_of_isPrefix {tenant' : Name} {r : Record G} (hkey : r.key tenant' = .ok x)
    (hpre : dataPrefix tenant id <+: x) : tenant' = tenant ∧ ∃ pk, r = .sql (.row id pk) := by
  obtain ⟨htenant, hreads⟩ := @Scan.reads_of_inRange _ (.tableData id : Scan G) _ _ _ _ _ _ rfl
    hkey (inRange_prefixUpperBound_iff.mpr hpre)
  refine ⟨htenant, ?_⟩
  cases r with
  | sql r =>
    cases r with
    | row id' pk =>
      obtain rfl := hreads
      exact ⟨pk, rfl⟩
    | _ => exact False.elim hreads
  | ledger r => exact False.elim hreads
  | evidence r => exact False.elim hreads

end Exact

/-- The range of a comparison with an index has exactly the entries whose value compares so
with the key, among those of its variant, and only entries of the index. Entries are ordered
by value and then by primary key. The range of a comparison with the primary key has exactly
the rows whose key compares so, and only rows of the table. -/
theorem ranges_exact (V : KeyVariants G) (tenant : Name) (id : UInt64) :
    (∀ index op key start stop, indexRange tenant id index op key = .ok (start, stop) →
      (∀ value pk entry, indexEntryKey tenant id index value pk = .ok entry → V.Same value key →
        (InRange start stop entry ↔ satisfies V op value key)) ∧
      ∀ tenant' (r : Record G) k, r.key tenant' = .ok k → InRange start stop k →
        tenant' = tenant ∧ ∃ value pk, r = .sql (.indexEntry id index value pk)) ∧
    (∀ index value pk value' pk' entry entry',
      indexEntryKey tenant id index value pk = .ok entry →
      indexEntryKey tenant id index value' pk' = .ok entry' → V.Same value value' →
      V.Same pk pk' → (entry < entry' ↔ V.lt value value' ∨ value = value' ∧ V.lt pk pk')) ∧
    ∀ op key start stop, pkRange tenant id op key = .ok (start, stop) →
      (∀ pk row, rowKey tenant id pk = .ok row → V.Same pk key →
        (InRange start stop row ↔ satisfies V op pk key)) ∧
      ∀ tenant' (r : Record G) k, r.key tenant' = .ok k → InRange start stop k →
        tenant' = tenant ∧ ∃ pk, r = .sql (.row id pk) := by
  refine ⟨?_, ?_, ?_⟩
  · intro index op key start stop hrange
    obtain ⟨b, hb, hiff⟩ := inRange_indexRange hrange
    constructor
    · intro value pk entry hentry hsame
      obtain ⟨v, p, hv, -, rfl⟩ := indexEntryKey_eq_ok.mp hentry
      rw [hiff, selects_entry_iff, bytesSatisfy_iff op hsame hv hb]
      exact and_iff_right (List.prefix_append ..)
    · intro tenant' r k hkey hk
      exact entry_of_isPrefix hkey ((hiff k).mp hk).1
  · intro index value pk value' pk' entry entry' hentry hentry' hsame hsamePk
    obtain ⟨v, p, hv, hp, rfl⟩ := indexEntryKey_eq_ok.mp hentry
    obtain ⟨v', p', hv', hp', rfl⟩ := indexEntryKey_eq_ok.mp hentry'
    have heq : v = v' ↔ value = value' := by
      constructor
      · rintro rfl
        exact V.bytes_inj hsame hv hv'
      · rintro rfl
        exact Except.ok.inj (hv.symm.trans hv')
    rw [append_lt_append_left, orderPreserving_append_lt, V.bytes_lt hsame hv hv', heq,
      V.bytes_lt hsamePk hp hp']
  · intro op key start stop hrange
    obtain ⟨b, hb, hiff⟩ := inRange_pkRange hrange
    constructor
    · intro pk row hrow hsame
      obtain ⟨p, hp, rfl⟩ := rowKey_eq_ok.mp hrow
      rw [hiff, bytesSatisfy_append_iff, bytesSatisfy_iff op hsame hp hb]
      exact and_iff_right (List.prefix_append ..)
    · intro tenant' r k hkey hk
      exact row_of_isPrefix hkey ((hiff k).mp hk).1

/-- A scan of the integers of an index up to seven, and one of the rows after seven. -/
theorem ranges_exact_seven :
    (∃ start stop, indexRange (G := Sql.Ints.engine) Sql.Ints.t 1 Sql.Ints.x .ltEq (.i64 7) =
        .ok (start, stop) ∧
      ∃ entry, indexEntryKey (G := Sql.Ints.engine) Sql.Ints.t 1 Sql.Ints.x (.i64 7) (.i64 256) =
        .ok entry ∧ Sql.Ints.variants.Same (.i64 7) (.i64 7) ∧
      (InRange start stop entry ↔ satisfies Sql.Ints.variants .ltEq (.i64 7) (.i64 7))) ∧
    ∃ start stop, pkRange (G := Sql.Ints.engine) Sql.Ints.t 1 .gt (.i64 7) = .ok (start, stop) ∧
      ∃ row, rowKey (G := Sql.Ints.engine) Sql.Ints.t 1 (.i64 256) = .ok row ∧
        (InRange start stop row ↔ satisfies Sql.Ints.variants .gt (.i64 256) (.i64 7)) := by
  have hsame : Sql.Ints.variants.Same (.i64 7) (.i64 7) := by
    change (Sql.Ints.compare (.i64 7) (.i64 7)).isSome = true
    decide
  have hsame' : Sql.Ints.variants.Same (.i64 256) (.i64 7) := by
    change (Sql.Ints.compare (.i64 256) (.i64 7)).isSome = true
    decide
  have hranges := ranges_exact Sql.Ints.variants Sql.Ints.t 1
  exact ⟨⟨_, _, rfl, _, rfl, hsame,
    (hranges.1 Sql.Ints.x .ltEq (.i64 7) _ _ rfl).1 (.i64 7) (.i64 256) _ rfl hsame⟩,
    _, _, rfl, _, rfl, (hranges.2.2 .gt (.i64 7) _ _ rfl).1 (.i64 256) _ rfl hsame'⟩

end BlueDB.Keyspace
