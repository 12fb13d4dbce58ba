import BlueDB.Evidence.Traverse

/-!
# The neighbors of a node

The adjacency keys of a node are ordered by weight, so that a floor is where the range of a
scan begins. What a scan reads back from the keys are the edges of the node from the floor
up, in either direction.
-/

namespace BlueDB.Evidence

theorem xor_two_pow {y k : ℕ} (h : y < 2 ^ k) : y ^^^ 2 ^ k = 2 ^ k + y := by
  have hor := Nat.two_pow_add_eq_or_of_lt h 1
  rw [Nat.mul_one] at hor
  rw [hor]
  apply Nat.eq_of_testBit_eq
  intro i
  rw [Nat.testBit_xor, Nat.testBit_or, Nat.testBit_two_pow]
  by_cases hi : k = i
  · subst hi
    rw [Nat.testBit_lt_two_pow h]
    simp
  · simp [hi]

/-- With the sign flipped, the bits of a weight count from the least one. -/
theorem toNat_flip (w : Int64) :
    ((w.toUInt64 ^^^ Int64.minValue.toUInt64).toNat : ℤ) = w.toInt + 2 ^ 63 := by
  have hmin : Int64.minValue.toUInt64.toNat = 2 ^ 63 := by decide
  have hint : w.toInt = if 2 * w.toUInt64.toNat < 2 ^ 64 then (w.toUInt64.toNat : ℤ)
      else (w.toUInt64.toNat : ℤ) - (2 ^ 64 : ℕ) := BitVec.toInt_eq_toNat_cond w.toBitVec
  rw [UInt64.toNat_xor, hmin, hint]
  have hlt := w.toUInt64.toNat_lt
  generalize w.toUInt64.toNat = x at hlt
  split_ifs with hx
  · rw [xor_two_pow (by omega)]
    push_cast
    ring
  · obtain ⟨y, rfl⟩ : ∃ y, x = 2 ^ 63 + y := ⟨x - 2 ^ 63, by omega⟩
    have hy : y < 2 ^ 63 := by omega
    have hback : (2 ^ 63 + y) ^^^ 2 ^ 63 = y := by
      rw [← xor_two_pow hy, Nat.xor_assoc, Nat.xor_self, Nat.xor_zero]
    rw [hback]
    push_cast
    ring

theorem weightObe_lt {v w : Int64} (h : v < w) : weightObe v < weightObe w := by
  have hpow : 256 ^ 8 = 2 ^ 64 := by norm_num
  have hv := toNat_flip v
  have hw := toNat_flip w
  rw [Int64.lt_iff_toInt_lt] at h
  apply beBytes_lt
  rw [hpow, Nat.mod_eq_of_lt (UInt64.toNat_lt _), Nat.mod_eq_of_lt (UInt64.toNat_lt _)]
  omega

theorem weightObe_append_lt_iff {v w : Int64} {x : List UInt8} :
    weightObe v ++ x < weightObe w ↔ v < w := by
  have hpos : ∀ {v w : Int64}, v < w → ∀ x y, weightObe v ++ x < weightObe w ++ y := by
    intro v w h x y
    exact append_lt_append_of_length (by unfold weightObe; simp) (weightObe_lt h)
  constructor
  · intro h
    rcases lt_trichotomy v w with hvw | rfl | hvw
    · exact hvw
    · have hle := le_of_isPrefix (List.prefix_append (weightObe v) x)
      exact absurd h (not_lt.mpr hle)
    · have hgt := hpos hvw [] x
      rw [List.append_nil] at hgt
      exact absurd h hgt.not_gt
  · intro h
    have hlt := hpos h x []
    rwa [List.append_nil] at hlt

theorem weightFromObe_weightObe (w : Int64) : weightFromObe (weightObe w) = w := by
  unfold weightFromObe weightObe
  rw [beValue_beBytes (UInt64.toNat_lt _), UInt64.ofNat_toNat, UInt64.xor_assoc, UInt64.xor_self,
    UInt64.xor_zero, Int64.toInt64_toUInt64]

theorem readLp_append {name : Name} (hname : Utf8 name.1) (a b : List UInt8) :
    readLp (a ++ (pushLp name ++ b)) a.length = .ok (name, a.length + 4 + name.1.length) := by
  have hlen : (beBytes 4 name.1.length).length = 4 := length_beBytes _ _
  have hcount : bytesAt (a ++ (pushLp name ++ b)) a.length 4 = some (beBytes 4 name.1.length) := by
    unfold pushLp lengthPrefixed
    rw [List.append_assoc]
    have h := bytesAt_append a (beBytes 4 name.1.length) (name.1 ++ b)
    rwa [hlen] at h
  have htext : bytesAt (a ++ (pushLp name ++ b)) (a.length + 4) name.1.length = some name.1 := by
    unfold pushLp lengthPrefixed
    have h := bytesAt_append (a ++ beBytes 4 name.1.length) name.1 b
    rw [List.length_append, hlen] at h
    rwa [List.append_assoc, ← List.append_assoc a]
  unfold readLp
  rw [hcount]
  dsimp only
  rw [beValue_beBytes name.2, htext]
  dsimp only
  rw [dif_pos ⟨name.2, hname⟩]

/-- What is behind the prefix of an adjacency key. -/
def edgeTail (far : Name) (w : Int64) (etype : Name) : List UInt8 :=
  weightObe w ++ (pushLp far ++ pushLp etype)

theorem parseTail_edgeTail {far etype : Name} (w : Int64) (hfar : Utf8 far.1)
    (htype : Utf8 etype.1) :
    parseTail (edgeTail far w etype) = .ok (far, w, etype) := by
  have hlen : (weightObe w).length = 8 := length_beBytes _ _
  have hweight : bytesAt (edgeTail far w etype) 0 8 = some (weightObe w) := by
    have h := bytesAt_append [] (weightObe w) (pushLp far ++ pushLp etype)
    rwa [hlen] at h
  have hread : readLp (edgeTail far w etype) 8 = .ok (far, 8 + 4 + far.1.length) := by
    have h := readLp_append hfar (weightObe w) (pushLp etype)
    rwa [hlen] at h
  have hread' : readLp (edgeTail far w etype) (8 + 4 + far.1.length) =
      .ok (etype, 8 + 4 + far.1.length + 4 + etype.1.length) := by
    have h := readLp_append htype (weightObe w ++ pushLp far) []
    have hpos : (weightObe w ++ pushLp far).length = 8 + 4 + far.1.length := by
      unfold pushLp lengthPrefixed
      rw [List.length_append, hlen, List.length_append, length_beBytes]
      omega
    rw [hpos, List.append_nil, List.append_assoc] at h
    exact h
  unfold parseTail
  rw [hweight]
  dsimp only
  rw [hread]
  change (readLp (edgeTail far w etype) (8 + 4 + far.1.length) >>= fun p =>
    pure (far, weightFromObe (weightObe w), p.1)) = _
  rw [hread', weightFromObe_weightObe]
  rfl

def edgeFrom (out : Bool) (graph node far etype : Name) : EdgeId :=
  if out then ⟨graph, node, far, etype⟩ else ⟨graph, far, node, etype⟩

def adjacencyPrefix (out : Bool) (t graph node : Name) : List UInt8 :=
  if out then graphOutPrefix t graph node else graphInPrefix t graph node

section Keys

variable {s : Store} {out : Bool} {t graph node : Name} {floor : Int64}

theorem encode_adjacencyKey (out : Bool) (t graph node far etype : Name) (w : Int64) :
    (adjacencyKey out t (edgeFrom out graph node far etype) w).encode =
      adjacencyPrefix out t graph node ++ edgeTail far w etype := by
  cases out with
  | false =>
    change externalKey t _ (pushLp graph ++ (pushLp node ++ (weightObe w ++ _))) = _
    unfold adjacencyPrefix graphInPrefix externalKey edgeTail
    simp only [Bool.false_eq_true, if_false, List.append_assoc, List.cons_append]
    rfl
  | true =>
    change externalKey t _ (pushLp graph ++ (pushLp node ++ (weightObe w ++ _))) = _
    unfold adjacencyPrefix graphOutPrefix externalKey edgeTail
    simp only [if_true, List.append_assoc, List.cons_append]
    rfl

theorem record_of_outTag {r : RecordKey} (h : r.tag = UInt8.ofNat (tagExternalBase + 13)) :
    ∃ graph src w dst etype, r = .graphOut graph src w dst etype := by
  cases r <;> first
    | exact ⟨_, _, _, _, _, rfl⟩
    | (simp only [RecordKey.tag] at h; exact absurd h (by decide))

theorem record_of_inTag {r : RecordKey} (h : r.tag = UInt8.ofNat (tagExternalBase + 14)) :
    ∃ graph dst w src etype, r = .graphIn graph dst w src etype := by
  cases r <;> first
    | exact ⟨_, _, _, _, _, rfl⟩
    | (simp only [RecordKey.tag] at h; exact absurd h (by decide))

theorem adjacencyPrefix_isPrefix {k : Key} (h : adjacencyPrefix out t graph node <+: k.encode) :
    ∃ far etype w, k = adjacencyKey out t (edgeFrom out graph node far etype) w := by
  have lp := selfDelimiting_pushLp
  have hshape : ∃ more, pushLp t ++ ((if out then UInt8.ofNat (tagExternalBase + 13)
      else UInt8.ofNat (tagExternalBase + 14)) :: (pushLp graph ++ (pushLp node ++ more))) =
        pushLp k.tenant ++ k.record.tag :: k.record.suffix := by
    obtain ⟨more, hmore⟩ := h
    refine ⟨more, ?_⟩
    rw [Key.encode, externalKey] at hmore
    rw [← hmore]
    cases out <;> simp [adjacencyPrefix, graphInPrefix, graphOutPrefix, externalKey]
  obtain ⟨more, hmore⟩ := hshape
  obtain ⟨htenant, hrest⟩ := lp _ _ _ _ hmore
  obtain ⟨htag, hsuffix⟩ := List.cons.inj hrest
  obtain ⟨tenant, record⟩ := k
  obtain rfl : t = tenant := htenant
  cases out with
  | false =>
    obtain ⟨graph', dst', w, src', etype', rfl⟩ := record_of_inTag htag.symm
    obtain ⟨rfl, hnode⟩ := lp _ _ _ _ hsuffix
    obtain ⟨rfl, -⟩ := lp _ _ _ _ hnode
    exact ⟨src', etype', w, rfl⟩
  | true =>
    obtain ⟨graph', src', w, dst', etype', rfl⟩ := record_of_outTag htag.symm
    obtain ⟨rfl, hnode⟩ := lp _ _ _ _ hsuffix
    obtain ⟨rfl, -⟩ := lp _ _ _ _ hnode
    exact ⟨dst', etype', w, rfl⟩

theorem mem_scanRange {start : List UInt8} {stop : Option (List UInt8)} {k : Key} :
    k ∈ scanRange s start stop ↔ InRange start stop k.encode ∧ (s.get k).isSome = true := by
  rw [scanRange, List.mem_insertionSort, Kv.mem_scan, InRange, ← not_lt]
  cases stop <;> simp

theorem mem_scan_adjacency {k : Key} :
    k ∈ scanRange s (adjacencyPrefix out t graph node ++ weightObe floor)
        (prefixUpperBound (adjacencyPrefix out t graph node)) ↔
      ∃ far etype w, k = adjacencyKey out t (edgeFrom out graph node far etype) w ∧ floor ≤ w ∧
        hasAdjacency s out t (edgeFrom out graph node far etype) w = true := by
  have hfloor : ∀ far etype w, adjacencyPrefix out t graph node ++ weightObe floor ≤
      (adjacencyKey out t (edgeFrom out graph node far etype) w).encode ↔ floor ≤ w := by
    intro far etype w
    rw [encode_adjacencyKey, ← not_lt, append_lt_append_left, edgeTail, weightObe_append_lt_iff,
      not_lt]
  rw [mem_scanRange, inRange_from_iff (List.prefix_append ..)]
  constructor
  · rintro ⟨⟨hpre, hge⟩, hlive⟩
    obtain ⟨far, etype, w, rfl⟩ := adjacencyPrefix_isPrefix hpre
    exact ⟨far, etype, w, rfl, (hfloor far etype w).mp hge, hlive⟩
  · rintro ⟨far, etype, w, rfl, hle, hlive⟩
    refine ⟨⟨?_, (hfloor far etype w).mpr hle⟩, hlive⟩
    rw [encode_adjacencyKey]
    exact List.prefix_append ..

end Keys

/-- A graph as it is stored: the adjacency keys agree with the weights, and names are strings. -/
structure StoredGraph (s : Store) : Prop where
  adjacent : Adjacent s
  text : ∀ t e, (getEdgeWeight s t e).isSome = true → Utf8 e.src.1 ∧ Utf8 e.dst.1 ∧ Utf8 e.etype.1

/-- When every element gives a result, the results are those of the elements. -/
theorem exists_mapM {α β ε : Type} {f : α → Except ε β} {l : List α}
    (h : ∀ a ∈ l, ∃ b, f a = .ok b) :
    ∃ bs, l.mapM f = .ok bs ∧ ∀ b, b ∈ bs ↔ ∃ a ∈ l, f a = .ok b := by
  induction l with
  | nil => exact ⟨[], rfl, by simp⟩
  | cons a l ih =>
    obtain ⟨b, hb⟩ := h a List.mem_cons_self
    obtain ⟨bs, hbs, hmem⟩ := ih fun a' h' => h a' (List.mem_cons_of_mem _ h')
    refine ⟨b :: bs, ?_, ?_⟩
    · rw [List.mapM_cons, hb, hbs]
      rfl
    · intro b'
      rw [List.mem_cons, hmem]
      constructor
      · rintro (rfl | ⟨a', ha', hb'⟩)
        · exact ⟨a, List.mem_cons_self, hb⟩
        · exact ⟨a', List.mem_cons_of_mem _ ha', hb'⟩
      · rintro ⟨a', ha', hb'⟩
        rcases List.mem_cons.mp ha' with rfl | ha'
        · exact Or.inl (Except.ok.inj (hb'.symm.trans hb))
        · exact Or.inr ⟨a', ha', hb'⟩

section Scans

variable {s : Store}

theorem StoredGraph.parse (h : StoredGraph s) {out : Bool} {t graph node far etype : Name}
    {w : Int64}
    (hlive : hasAdjacency s out t (edgeFrom out graph node far etype) w = true) :
    parseTail ((adjacencyKey out t (edgeFrom out graph node far etype) w).encode.drop
      (adjacencyPrefix out t graph node).length) = .ok (far, w, etype) := by
  have hweight := (adjacent_iff.mp h.adjacent out t _ w).mpr hlive
  obtain ⟨hsrc, hdst, htype⟩ := h.text t (edgeFrom out graph node far etype) (by rw [hweight]; rfl)
  rw [encode_adjacencyKey, List.drop_left]
  cases out with
  | false => exact parseTail_edgeTail w hsrc htype
  | true => exact parseTail_edgeTail w hdst htype

theorem StoredGraph.scanAdjacency (h : StoredGraph s) (out : Bool) (t graph node : Name)
    (floor : Int64) : ∃ edges,
      Evidence.scanAdjacency s (adjacencyPrefix out t graph node) floor = .ok edges ∧
      ∀ far w etype, (far, w, etype) ∈ edges ↔ floor ≤ w ∧
        getEdgeWeight s t (edgeFrom out graph node far etype) = some w := by
  have hparse : ∀ k ∈ scanRange s (adjacencyPrefix out t graph node ++ weightObe floor)
      (prefixUpperBound (adjacencyPrefix out t graph node)),
      ∃ edge, parseTail (k.encode.drop (adjacencyPrefix out t graph node).length) = .ok edge := by
    intro k hk
    obtain ⟨far, etype, w, rfl, -, hlive⟩ := mem_scan_adjacency.mp hk
    exact ⟨_, h.parse hlive⟩
  obtain ⟨edges, hedges, hmem⟩ := exists_mapM hparse
  refine ⟨edges, hedges, ?_⟩
  intro far w etype
  rw [hmem]
  constructor
  · rintro ⟨k, hk, hedge⟩
    obtain ⟨far', etype', w', rfl, hle, hlive⟩ := mem_scan_adjacency.mp hk
    obtain ⟨rfl, rfl, rfl⟩ : far' = far ∧ w' = w ∧ etype' = etype := by
      have heq := Except.ok.inj ((h.parse hlive).symm.trans hedge)
      exact ⟨congrArg Prod.fst heq, congrArg (·.2.1) heq, congrArg (·.2.2) heq⟩
    exact ⟨hle, (adjacent_iff.mp h.adjacent out t _ _).mpr hlive⟩
  · rintro ⟨hle, hweight⟩
    have hlive := (adjacent_iff.mp h.adjacent out t _ _).mp hweight
    exact ⟨_, mem_scan_adjacency.mpr ⟨far, etype, w, rfl, hle, hlive⟩, h.parse hlive⟩

/-- An edge from one node to the next, against its direction too when there is none. -/
def EdgeBetween (s : Store) (t graph : Name) (directed : Bool) (u v : Name) (w : Int64) : Prop :=
  ∃ etype, getEdgeWeight s t ⟨graph, u, v, etype⟩ = some w ∨
    directed = false ∧ getEdgeWeight s t ⟨graph, v, u, etype⟩ = some w

theorem StoredGraph.neighbors (h : StoredGraph s) (t graph : Name) (directed : Bool)
    (floor : Int64) (node : Name) : ∃ edges,
      Evidence.neighbors s t graph directed floor node = .ok edges ∧
      ∀ far w, (∃ etype, (far, w, etype) ∈ edges) ↔
        floor ≤ w ∧ EdgeBetween s t graph directed node far w := by
  obtain ⟨outs, houts, hmemOut⟩ := h.scanAdjacency true t graph node floor
  obtain ⟨ins, hins, hmemIn⟩ := h.scanAdjacency false t graph node floor
  unfold Evidence.neighbors
  have hout : outNeighbors s t graph node floor = .ok outs := houts
  have hin : inNeighbors s t graph node floor = .ok ins := hins
  rw [hout, hin]
  cases directed with
  | true =>
    refine ⟨outs, rfl, fun far w => ?_⟩
    constructor
    · rintro ⟨etype, hmem⟩
      obtain ⟨hle, hweight⟩ := (hmemOut far w etype).mp hmem
      exact ⟨hle, etype, Or.inl hweight⟩
    · rintro ⟨hle, etype, hweight | ⟨hfalse, -⟩⟩
      · exact ⟨etype, (hmemOut far w etype).mpr ⟨hle, hweight⟩⟩
      · cases hfalse
  | false =>
    refine ⟨outs ++ ins, rfl, fun far w => ?_⟩
    constructor
    · rintro ⟨etype, hmem⟩
      rcases List.mem_append.mp hmem with hmem | hmem
      · obtain ⟨hle, hweight⟩ := (hmemOut far w etype).mp hmem
        exact ⟨hle, etype, Or.inl hweight⟩
      · obtain ⟨hle, hweight⟩ := (hmemIn far w etype).mp hmem
        exact ⟨hle, etype, Or.inr ⟨rfl, hweight⟩⟩
    · rintro ⟨hle, etype, hweight | ⟨-, hweight⟩⟩
      · exact ⟨etype, List.mem_append_left _ ((hmemOut far w etype).mpr ⟨hle, hweight⟩)⟩
      · exact ⟨etype, List.mem_append_right _ ((hmemIn far w etype).mpr ⟨hle, hweight⟩)⟩

end Scans

end BlueDB.Evidence
