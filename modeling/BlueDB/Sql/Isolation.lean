import BlueDB.Sql.Steps

/-!
# Open transactions

Whatever a statement does inside a transaction, and whether it returns or fails,
the committed store stays as it is: the overlay grows, the allocator of row keys
only moves up and the checks staged for the commit stay staged.
-/

namespace BlueDB.Sql

variable {G : Engine} {c c' c'' : Conn G} {α β : Type}

/-- The transaction of `c'` is that of `c` with more writes buffered. -/
structure Extends (c c' : Conn G) : Prop where
  txn : ∃ x ∈ c.txn, ∃ x' ∈ c'.txn, x'.snapshot = x.snapshot ∧ ∃ ws, x'.overlay = x.overlay ++ ws
  live : c'.live = c.live
  seq : ∀ id, c'.seq id = c.seq id ∨
    ∃ last, c'.seq id = some last ∧ (c.seq id).getD (liveMaxI64Key c.live id) ≤ last

namespace Extends

theorem isSome (h : Extends c c') : c'.txn.isSome = true := by
  obtain ⟨-, -, x', hx', -⟩ := h.txn
  rw [Option.mem_def.mp hx']
  rfl

theorem refl (hc : c.txn.isSome = true) : Extends c c := by
  obtain ⟨x, hx⟩ := Option.isSome_iff_exists.mp hc
  exact ⟨⟨x, hx, x, hx, rfl, [], by simp⟩, rfl, fun _ => Or.inl rfl⟩

theorem trans (h : Extends c c') (h' : Extends c' c'') : Extends c c'' := by
  obtain ⟨x, hx, x', hx', hsnap, ws, hover⟩ := h.txn
  obtain ⟨y, hy, y', hy', hsnap', ws', hover'⟩ := h'.txn
  obtain rfl : x' = y := Option.some.inj (hx'.symm.trans hy)
  constructor
  · exact ⟨x, hx, y', hy', hsnap'.trans hsnap, ws ++ ws', by
      rw [hover', hover, List.append_assoc]⟩
  · exact h'.live.trans h.live
  · intro id
    rcases h.seq id with hsame | ⟨last, hlast, hle⟩
    · rcases h'.seq id with hsame' | ⟨last', hlast', hle'⟩
      · exact Or.inl (hsame'.trans hsame)
      · rw [hsame, h.live] at hle'
        exact Or.inr ⟨last', hlast', hle'⟩
    · rcases h'.seq id with hsame' | ⟨last', hlast', hle'⟩
      · exact Or.inr ⟨last, hsame'.trans hlast, hle⟩
      · rw [hlast] at hle'
        exact Or.inr ⟨last', hlast', hle.trans hle'⟩

/-- A transaction with an overlay of the same length reads the same. -/
theorem view_eq (h : Extends c c')
    (hlen : c'.txn.map (·.overlay.length) = c.txn.map (·.overlay.length)) : c'.view = c.view := by
  obtain ⟨x, hx, x', hx', hsnap, ws, hover⟩ := h.txn
  rw [Option.mem_def.mp hx, Option.mem_def.mp hx', Option.map_some, Option.map_some,
    Option.some.injEq, hover, List.length_append] at hlen
  have hws : ws = [] := List.eq_nil_of_length_eq_zero (by omega)
  simp only [Conn.view, Option.mem_def.mp hx, Option.mem_def.mp hx', hsnap, hover, hws,
    List.append_nil]

end Extends

theorem Buffered.extends {ws : Batch G} (h : Buffered c c' ws) : Extends c c' := by
  obtain ⟨x, hx, x', hx', hsnap, hover⟩ := h.txn
  exact ⟨⟨x, hx, x', hx', hsnap, ws, hover⟩, h.live, fun id => Or.inl (congrFun h.seq id)⟩

structure Bufferwise (R : Conn G → Conn G → Prop) : Prop where
  refl : ∀ c, R c c
  trans : ∀ {c c' c''}, R c c' → R c' c'' → R c c''
  write : ∀ c w, R c (c.write w)
  stageKey : ∀ k, Along R (fun _ : Error G => R) (stageUniqueCheck k)
  stageCheck : ∀ check, Along R (fun _ : Error G => R) (stageUniqueIndexCheck check)
  allocate : ∀ t count, Along R (fun _ : Error G => R) (allocateKeys t count)

namespace Bufferwise

variable {R : Conn G → Conn G → Prop} (h : Bufferwise R)
include h

theorem tracks : Tracks R (fun _ : Error G => R) where
  __ := h
  fail := h.trans

theorem except {x : Except (Error G) α} : Along R (fun _ => R) (ofExcept x) :=
  Along.ofExcept h.tracks fun _ _ => h.refl

theorem checkUnique (t : Name) (id : UInt64) (unique : List Name) (index : Name)
    (value pk : G.Key) : Along R (fun _ => R) (checkUnique t id unique index value pk) := by
  unfold Sql.checkUnique
  split_ifs with hunique
  · apply Along.bind h.tracks
    · unfold enforceUniqueIndex
      apply Along.bind h.tracks h.except
      intro bytes
      apply Along.bind h.tracks (Along.get h.tracks)
      intro c
      dsimp only
      split_ifs with howners
      · exact Along.pure h.tracks _
      · exact Along.throw h.refl
    · intro _
      apply Along.bind h.tracks h.except
      intro bytes
      exact h.stageCheck _
  · exact Along.pure h.tracks _

theorem applyIndexEntries (t : Name) (pk : G.Key) (row : DataRow G.Value) (insert : Bool) :
    Along R (fun _ => R) (applyIndexEntries t pk row insert) := by
  unfold Sql.applyIndexEntries
  apply Along.bind h.tracks (Along.get h.tracks)
  intro c
  dsimp only
  split_ifs with hnil
  · exact Along.pure h.tracks _
  · apply Along.bind h.tracks h.except
    intro id
    apply Along.forM h.tracks
    intro index _
    unfold applyIndexEntry
    apply Along.bind h.tracks h.except
    intro value
    apply Along.bind h.tracks (h.checkUnique ..)
    intro _
    apply Along.bind h.tracks h.except
    intro valueBytes
    apply Along.bind h.tracks h.except
    intro pkBytes
    split_ifs with hinsert
    · exact Along.modify fun _ => h.write ..
    · exact Along.modify fun _ => h.write ..

theorem forgetUniqueIndex (t index : Name) :
    Along R (fun _ => R) (forgetUniqueIndex t index : Exec G Unit) := by
  unfold Sql.forgetUniqueIndex
  apply Along.bind h.tracks (Along.get h.tracks)
  intro c
  dsimp only
  split_ifs with hunique
  · exact Along.modify fun _ => h.write ..
  · exact Along.pure h.tracks _

theorem stepwise : Stepwise (fun _ => True) R (fun _ : Error G => R) where
  tracks := h.tracks
  write c w _ := h.write c w
  forget := h.forgetUniqueIndex
  entries t pk row insert _ := h.applyIndexEntries t pk row insert
  stage := h.stageKey
  allocate := h.allocate
  error _ c _ := h.refl c

/-- A statement keeps such a relation, whether it returns or fails. -/
theorem runStmt (stmt : Stmt G) : Along R (fun _ => R) (runStmt stmt) :=
  runStmt_along h.stepwise stmt fun _ _ => trivial

end Bufferwise

/-- What a program does inside a transaction, if one is open. -/
def Grows (c c' : Conn G) : Prop := c.txn.isSome = true → Extends c c'

theorem stage_grows (f : Txn G → Txn G) (hover : ∀ x, (f x).overlay = x.overlay)
    (hsnap : ∀ x, (f x).snapshot = x.snapshot) :
    Along Grows (fun _ => Grows)
      (modify fun c => { c with txn := c.txn.map f } : Exec G Unit) := by
  apply Along.modify
  intro c hc
  obtain ⟨x, hx⟩ := Option.isSome_iff_exists.mp hc
  constructor
  · exact ⟨x, hx, f x, by simp [hx], hsnap x, [], by rw [hover, List.append_nil]⟩
  · rfl
  · exact fun _ => Or.inl rfl

theorem allocateKeys_grows (t : Name) (count : ℕ) :
    Along Grows (fun _ => Grows) (allocateKeys t count : Exec G ℤ) := by
  constructor
  intro c
  unfold allocateKeys
  rw [Holds.bind_iff, Holds.get_iff, Holds.bind_iff]
  apply holds_ofExcept
  · intro id _
    dsimp only
    split_ifs with hlimit
    · rw [Holds.bind_iff, Holds.modify_iff, Holds.pure_iff]
      intro hc
      obtain ⟨x, hx⟩ := Option.isSome_iff_exists.mp hc
      refine ⟨⟨x, hx, x, hx, rfl, [], by simp⟩, rfl, ?_⟩
      intro id'
      by_cases hid : id' = id
      · subst id'
        exact Or.inr ⟨_, Function.update_self .., by omega⟩
      · exact Or.inl (Function.update_of_ne hid ..)
    · exact fun hc => Extends.refl hc
  · exact fun _ _ hc => Extends.refl hc

theorem bufferwise_grows : Bufferwise (Grows (G := G)) where
  refl _ hc := Extends.refl hc
  trans h h' hc := (h hc).trans (h' (h hc).isSome)
  write _ w hc := (buffered_write hc w).extends
  stageKey _ := stage_grows _ (fun _ => rfl) (fun _ => rfl)
  stageCheck _ := stage_grows _ (fun _ => rfl) (fun _ => rfl)
  allocate := allocateKeys_grows

/-- A statement inside a transaction leaves the committed store alone. -/
theorem runStmt_grows (stmt : Stmt G) : Along Grows (fun _ => Grows) (runStmt stmt) :=
  bufferwise_grows.runStmt stmt

/-- What is staged for the commit stays staged. -/
structure StagesMore (x x' : Txn G) : Prop where
  keys : x.uniqueChecks ⊆ x'.uniqueChecks
  checks : x.uniqueIndexChecks ⊆ x'.uniqueIndexChecks

theorem StagesMore.refl (x : Txn G) : StagesMore x x := ⟨fun _ h => h, fun _ h => h⟩

theorem StagesMore.trans {x x' x'' : Txn G} (h : StagesMore x x') (h' : StagesMore x' x'') :
    StagesMore x x'' :=
  ⟨fun _ hk => h'.keys (h.keys hk), fun _ hch => h'.checks (h.checks hch)⟩

/-- The open transaction of `c'` stages what that of `c` does. -/
def KeepsStaged (c c' : Conn G) : Prop := ∀ x ∈ c.txn, ∃ x' ∈ c'.txn, StagesMore x x'

theorem stage_keepsStaged (f : Txn G → Txn G) (hmore : ∀ x, StagesMore x (f x)) :
    Along KeepsStaged (fun _ => KeepsStaged)
      (modify fun c => { c with txn := c.txn.map f } : Exec G Unit) := by
  apply Along.modify
  intro c x hx
  exact ⟨f x, by simp [Option.mem_def.mp hx], hmore x⟩

theorem allocateKeys_keepsStaged (t : Name) (count : ℕ) :
    Along KeepsStaged (fun _ => KeepsStaged) (allocateKeys t count : Exec G ℤ) := by
  constructor
  intro c
  have hsame : KeepsStaged c c := fun x hx => ⟨x, hx, StagesMore.refl x⟩
  unfold allocateKeys
  rw [Holds.bind_iff, Holds.get_iff, Holds.bind_iff]
  apply holds_ofExcept
  · intro id _
    dsimp only
    split_ifs with hlimit
    · exact hsame
    · exact hsame
  · exact fun _ _ => hsame

theorem bufferwise_keepsStaged : Bufferwise (KeepsStaged (G := G)) where
  refl _ x hx := ⟨x, hx, StagesMore.refl x⟩
  trans h h' x hx := by
    obtain ⟨x', hx', hmore⟩ := h x hx
    obtain ⟨x'', hx'', hmore'⟩ := h' x' hx'
    exact ⟨x'', hx'', hmore.trans hmore'⟩
  write c w x hx := by
    refine ⟨{ x with overlay := x.overlay ++ [w] }, ?_, fun _ hk => hk, fun _ hch => hch⟩
    unfold Conn.write
    rw [Option.mem_def.mp hx]
    rfl
  stageKey _ := stage_keepsStaged _ fun _ =>
    ⟨fun _ hk => List.mem_append_left _ hk, fun _ hch => hch⟩
  stageCheck _ := stage_keepsStaged _ fun _ =>
    ⟨fun _ hk => hk, fun _ hch => List.mem_append_left _ hch⟩
  allocate := allocateKeys_keepsStaged

end BlueDB.Sql
