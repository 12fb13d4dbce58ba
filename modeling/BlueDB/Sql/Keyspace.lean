import BlueDB.Lib.ByteTuples
import BlueDB.Sql.Storage

/-!
# The order of the keyspace

Different records have different keys, the rows of a table and the entries of an
index are exactly what starts with their prefix, and entries are ordered by
value and then by primary key.
-/

namespace BlueDB.Sql

theorem selfDelimiting_tableId : SelfDelimiting fun id : UInt64 => beBytes 8 id.toNat := by
  apply SelfDelimiting.of_length (w := 8)
  · intro id
    exact length_beBytes _ _
  · intro a b h
    exact UInt64.toNat_inj.mp (beBytes_inj a.toNat_lt b.toNat_lt h)

theorem dataPrefix_append_inj {id id' : UInt64} {x y : List UInt8} :
    dataPrefix id ++ x = dataPrefix id' ++ y ↔ id = id' ∧ x = y := by
  constructor
  · intro h
    exact selfDelimiting_tableId _ _ _ _ (List.cons.inj h).2
  · intro ⟨hid, hx⟩
    rw [hid, hx]

theorem indexPrefix_append_inj {id id' : UInt64} {n n' : Name} {x y : List UInt8} :
    indexPrefix id n ++ x = indexPrefix id' n' ++ y ↔ id = id' ∧ n = n' ∧ x = y := by
  constructor
  · intro h
    have htail : beBytes 8 id.toNat ++ lengthPrefixed 4 n.1 ++ x =
        beBytes 8 id'.toNat ++ lengthPrefixed 4 n'.1 ++ y := (List.cons.inj h).2
    rw [List.append_assoc, List.append_assoc] at htail
    obtain ⟨hid, hrest⟩ := selfDelimiting_tableId _ _ _ _ htail
    obtain ⟨hn, hx⟩ := selfDelimiting_lengthPrefixed 4 _ _ _ _ hrest
    exact ⟨hid, hn, hx⟩
  · intro ⟨hid, hn, hx⟩
    rw [hid, hn, hx]

theorem indexValuePrefix_append_inj {id id' : UInt64} {n n' : Name} {v v' x y : List UInt8} :
    indexValuePrefix id n v ++ x = indexValuePrefix id' n' v' ++ y ↔
      id = id' ∧ n = n' ∧ v = v' ∧ x = y := by
  unfold indexValuePrefix
  rw [List.append_assoc, List.append_assoc, indexPrefix_append_inj]
  constructor
  · intro ⟨hid, hn, hrest⟩
    exact ⟨hid, hn, selfDelimiting_orderPreserving _ _ _ _ hrest⟩
  · intro ⟨hid, hn, hv, hx⟩
    exact ⟨hid, hn, by rw [hv, hx]⟩

/-- The first byte of a key tells the kind of the record. -/
def StorageKey.tag : StorageKey → UInt8
  | .schema _ => tagSchema
  | .row _ _ => tagData
  | .indexEntry _ _ _ _ => tagIndex
  | .metadata _ => tagMeta
  | .colcat _ => tagColcat
  | .tableid _ => tagTableid
  | .tableidSeq => tagTableidSeq
  | .pkcat _ => tagPkcat
  | .uniqueidx _ => tagUniqueidx

theorem encode_indexEntry (id : UInt64) (n : Name) (v pk : List UInt8) :
    (StorageKey.indexEntry id n v pk).encode = indexPrefix id n ++ (orderPreserving v ++ pk) :=
  List.append_assoc ..

theorem encode_head (k : StorageKey) : k.encode.head? = some k.tag := by
  cases k <;> rfl

theorem StorageKey.encode_injective : Function.Injective StorageKey.encode := by
  intro a b h
  have htag : a.tag = b.tag := by
    have := congrArg List.head? h
    rw [encode_head, encode_head] at this
    exact Option.some.inj this
  cases a <;> cases b <;> first
    | exact absurd htag (ne_of_beq_false rfl)
    | rfl
    | (rw [Subtype.ext (List.cons.inj h).2])
    | (obtain ⟨hid, hpk⟩ := dataPrefix_append_inj.mp h
       rw [hid, hpk])
    | (obtain ⟨hid, hn, hv, hpk⟩ := indexValuePrefix_append_inj.mp h
       rw [hid, hn, hv, hpk])

theorem dataPrefix_isPrefix {id : UInt64} {k : StorageKey} :
    dataPrefix id <+: k.encode ↔ ∃ pk, k = .row id pk := by
  constructor
  · intro ⟨rest, h⟩
    have htag : k.tag = tagData := by
      have := congrArg List.head? h
      rw [encode_head] at this
      exact (Option.some.inj this).symm
    cases k <;> first
      | exact absurd htag (ne_of_beq_false rfl)
      | (obtain ⟨hid, hpk⟩ := dataPrefix_append_inj.mp h
         exact ⟨_, by rw [hid]⟩)
  · intro ⟨pk, hk⟩
    subst k
    exact List.prefix_append ..

theorem tag_of_indexPrefix_append {id : UInt64} {n : Name} {rest : List UInt8} {k : StorageKey}
    (h : indexPrefix id n ++ rest = k.encode) :
    ∃ v pk, k = .indexEntry id n v pk ∧ rest = orderPreserving v ++ pk := by
  have htag : k.tag = tagIndex := by
    have := congrArg List.head? h
    rw [encode_head] at this
    exact (Option.some.inj this).symm
  cases k with
  | indexEntry id' n' v pk =>
    rw [encode_indexEntry] at h
    obtain ⟨hid, hn, hrest⟩ := indexPrefix_append_inj.mp h
    exact ⟨v, pk, by rw [hid, hn], hrest⟩
  | _ => exact absurd htag (ne_of_beq_false rfl)

theorem indexPrefix_isPrefix {id : UInt64} {n : Name} {k : StorageKey} :
    indexPrefix id n <+: k.encode ↔ ∃ v pk, k = .indexEntry id n v pk := by
  constructor
  · intro ⟨rest, h⟩
    obtain ⟨v, pk, hk, _⟩ := tag_of_indexPrefix_append h
    exact ⟨v, pk, hk⟩
  · intro ⟨v, pk, hk⟩
    subst k
    rw [encode_indexEntry]
    exact List.prefix_append ..

theorem indexValuePrefix_isPrefix {id : UInt64} {n : Name} {v : List UInt8} {k : StorageKey} :
    indexValuePrefix id n v <+: k.encode ↔ ∃ pk, k = .indexEntry id n v pk := by
  constructor
  · intro ⟨rest, h⟩
    have happ := h
    unfold indexValuePrefix at happ
    rw [List.append_assoc] at happ
    obtain ⟨w, pk, hk, hrest⟩ := tag_of_indexPrefix_append happ
    obtain ⟨hv, -⟩ := selfDelimiting_orderPreserving _ _ _ _ hrest
    exact ⟨pk, by rw [hk, hv]⟩
  · intro ⟨pk, hk⟩
    subst k
    exact List.prefix_append ..

/-- Whether a comparison that comes out as `o` satisfies the operator. -/
def IndexOperator.accepts : IndexOperator → Ordering → Bool
  | .gt, o => o = .gt
  | .lt, o => o = .lt
  | .gtEq, o => o ≠ .lt
  | .ltEq, o => o ≠ .gt
  | .eq, o => o = .eq

theorem exists_valueEnd (id : UInt64) (n : Name) (v : List UInt8) :
    ∃ e, prefixUpperBound (indexValuePrefix id n v) = some e ∧ indexPrefix id n <+: e ∧
      ∀ k, k < e ↔ k < indexValuePrefix id n v ∨ indexValuePrefix id n v <+: k := by
  obtain ⟨e, he⟩ := exists_orderPreserving_upperBound v
  have hend : prefixUpperBound (indexValuePrefix id n v) = some (indexPrefix id n ++ e) :=
    prefixUpperBound_append he
  refine ⟨_, hend, List.prefix_append .., fun k => ?_⟩
  rw [← lt_prefixUpperBound_iff, hend]
  simp

section IndexRange

variable {id : UInt64} {n : Name} {v b p : List UInt8} {k : StorageKey}

theorem indexEntry_lt_indexValuePrefix :
    (StorageKey.indexEntry id n v p).encode < indexValuePrefix id n b ↔ v < b := by
  have h := @orderPreserving_append_lt v b p []
  rw [List.append_nil] at h
  rw [encode_indexEntry, indexValuePrefix, append_lt_append_left, h]
  simp

theorem indexValuePrefix_isPrefix_indexEntry :
    indexValuePrefix id n b <+: (StorageKey.indexEntry id n v p).encode ↔ v = b := by
  rw [indexValuePrefix_isPrefix]
  constructor
  · intro ⟨pk, h⟩
    exact (StorageKey.indexEntry.inj h).2.2.1
  · intro h
    exact ⟨p, by rw [h]⟩

/-- Where a key lies that an operator selects, seen from the entries of the value. -/
def IndexOperator.Selects (op : IndexOperator) (value x : List UInt8) : Prop :=
  match op with
  | .eq => value <+: x
  | .lt => x < value
  | .ltEq => x < value ∨ value <+: x
  | .gt => ¬(x < value ∨ value <+: x)
  | .gtEq => ¬x < value

theorem inRange_indexRange_iff (op : IndexOperator) {x : List UInt8} :
    InRange (indexRange id n op b).1 (indexRange id n op b).2 x ↔
      indexPrefix id n <+: x ∧ op.Selects (indexValuePrefix id n b) x := by
  obtain ⟨e, he, hbound, hlt⟩ := exists_valueEnd id n b
  have hindex : indexPrefix id n <+: indexValuePrefix id n b := List.prefix_append ..
  unfold IndexOperator.Selects
  cases op with
  | eq =>
    dsimp only [indexRange]
    rw [he, Option.some_or, ← he, inRange_prefixUpperBound_iff]
    exact ⟨fun h => ⟨hindex.trans h, h⟩, fun h => h.2⟩
  | lt => exact inRange_below_iff hindex
  | ltEq =>
    dsimp only [indexRange]
    rw [he, Option.some_or, inRange_below_iff hbound, hlt]
  | gt =>
    dsimp only [indexRange]
    rw [he, Option.getD_some, inRange_from_iff hbound, ← not_lt, hlt]
  | gtEq =>
    dsimp only [indexRange]
    rw [inRange_from_iff hindex, ← not_lt]

theorem inRange_index_iff (op : IndexOperator) :
    InRange (indexRange id n op b).1 (indexRange id n op b).2 k.encode ↔
      ∃ v p, k = .indexEntry id n v p ∧ op.accepts (compareBytes v b) = true := by
  rw [inRange_indexRange_iff, indexPrefix_isPrefix]
  have hentry : ∀ v p, op.Selects (indexValuePrefix id n b)
      (StorageKey.indexEntry id n v p).encode ↔ op.accepts (compareBytes v b) = true := by
    intro v p
    unfold IndexOperator.Selects
    rw [indexEntry_lt_indexValuePrefix, indexValuePrefix_isPrefix_indexEntry]
    rcases lt_trichotomy v b with hvb | hvb | hvb
    · have hcmp := compareBytes_eq_lt.mpr hvb
      cases op <;> simp [IndexOperator.accepts, hcmp, hvb, hvb.ne]
    · have hcmp := compareBytes_eq_eq.mpr hvb
      cases op <;> simp only [IndexOperator.accepts, hcmp] <;> simp [hvb]
    · have hcmp := compareBytes_eq_gt.mpr hvb
      cases op <;> simp [IndexOperator.accepts, hcmp, hvb.ne', hvb.not_gt]
  constructor
  · intro ⟨⟨v, p, hk⟩, h⟩
    subst k
    exact ⟨v, p, rfl, (hentry v p).mp h⟩
  · intro ⟨v, p, hk, h⟩
    subst k
    exact ⟨⟨v, p, rfl⟩, (hentry v p).mpr h⟩

theorem indexEntry_lt_indexEntry {v' p' : List UInt8} :
    (StorageKey.indexEntry id n v p).encode < (StorageKey.indexEntry id n v' p').encode ↔
      v < v' ∨ v = v' ∧ p < p' := by
  rw [encode_indexEntry, encode_indexEntry, append_lt_append_left, orderPreserving_append_lt]

end IndexRange

variable {G : Engine}

theorem mem_scanRange {s : Store G} {start : List UInt8} {stop : Option (List UInt8)}
    {k : StorageKey} :
    k ∈ scanRange s start stop ↔ InRange start stop k.encode ∧ (s.get k).isSome = true := by
  rw [scanRange, List.mem_insertionSort, Kv.mem_scan, InRange, ← not_lt]
  cases stop <;> simp

theorem scanRange_ascending (s : Store G) (start : List UInt8) (stop : Option (List UInt8)) :
    (scanRange s start stop).Pairwise fun a b => a.encode < b.encode := by
  have htotal : Std.Total fun a b : StorageKey => ¬b.encode < a.encode :=
    ⟨fun a b => by
      simp only [not_lt]
      exact le_total _ _⟩
  have htrans : IsTrans StorageKey fun a b => ¬b.encode < a.encode :=
    ⟨fun a b c hab hbc => by
      simp only [not_lt] at hab hbc ⊢
      exact hab.trans hbc⟩
  have hsorted := List.pairwise_insertionSort (fun a b : StorageKey => ¬b.encode < a.encode)
    (s.scan fun k => !decide (k.encode < start) && stop.all fun e => decide (k.encode < e))
  have hnodup : (scanRange s start stop).Nodup :=
    (List.perm_insertionSort _ _).nodup_iff.mpr ((List.nodup_dedup _).filter _)
  apply (hsorted.and hnodup).imp
  intro a b ⟨hle, hne⟩
  exact lt_of_le_of_ne (not_lt.mp hle) fun h => hne (StorageKey.encode_injective h)

theorem mem_scanRange_prefixed {s : Store G} {p : List UInt8} {k : StorageKey} :
    k ∈ scanRange s p (prefixUpperBound p) ↔ p <+: k.encode ∧ (s.get k).isSome = true := by
  rw [mem_scanRange, inRange_prefixUpperBound_iff]

theorem mem_scanTable {s : Store G} {id : UInt64} {k : StorageKey} :
    k ∈ scanTable s id ↔ ∃ pk, k = .row id pk ∧ (readRow s id pk).isSome = true := by
  rw [scanTable, mem_scanRange_prefixed, dataPrefix_isPrefix]
  constructor
  · intro ⟨⟨pk, hk⟩, hlive⟩
    subst k
    exact ⟨pk, rfl, hlive⟩
  · intro ⟨pk, hk, hlive⟩
    subst k
    exact ⟨⟨pk, rfl⟩, hlive⟩

theorem mem_logicalRows_scanTable {s : Store G} {id : UInt64} {catalog : Option (ColumnCatalog G)}
    {p : G.Key × DataRow G.Value} :
    p ∈ logicalRows s catalog (scanTable s id) ↔ ∃ pk stored, readRow s id pk = some stored ∧
      p = (stored.key, toLogical catalog stored.row) := by
  rw [logicalRows, List.mem_filterMap]
  constructor
  · intro ⟨k, hk, hp⟩
    obtain ⟨pk, rfl, -⟩ := mem_scanTable.mp hk
    obtain ⟨stored, hstored, hp⟩ := Option.map_eq_some_iff.mp hp
    exact ⟨pk, stored, hstored, hp.symm⟩
  · intro ⟨pk, stored, hstored, hp⟩
    subst p
    refine ⟨.row id pk, mem_scanTable.mpr ⟨pk, rfl, ?_⟩, ?_⟩
    · rw [hstored]
      rfl
    · change (readRow s id pk).map _ = _
      rw [hstored]
      rfl

theorem scanTable_congr {s s' : Store G} {id : UInt64}
    (h : ∀ pk, (readRow s' id pk).isSome = (readRow s id pk).isSome) :
    scanTable s' id = scanTable s id := by
  have hirrefl : Std.Irrefl fun a b : StorageKey => a.encode < b.encode :=
    ⟨fun a => lt_irrefl a.encode⟩
  have hantisymm : Std.Antisymm fun a b : StorageKey => a.encode < b.encode :=
    ⟨fun a b hab hba => absurd hba (lt_asymm hab)⟩
  apply (scanRange_ascending ..).eq_of_mem_iff (scanRange_ascending ..)
  intro k
  change k ∈ scanTable s' id ↔ k ∈ scanTable s id
  rw [mem_scanTable, mem_scanTable]
  simp only [h]

theorem logicalRows_congr {s s' : Store G} {id : UInt64} (catalog : Option (ColumnCatalog G))
    (h : ∀ pk, readRow s' id pk = readRow s id pk) :
    logicalRows s' catalog (scanTable s' id) = logicalRows s catalog (scanTable s id) := by
  have hkeys : scanTable s' id = scanTable s id := scanTable_congr fun pk => by rw [h]
  unfold logicalRows
  rw [hkeys]
  apply List.filterMap_congr
  intro k hk
  obtain ⟨pk, rfl, -⟩ := mem_scanTable.mp hk
  change (readRow s' id pk).map _ = (readRow s id pk).map _
  rw [h]

end BlueDB.Sql
