import BlueDB.Collections.Store

/-!
# Names of columns and tables

What the writes read off a name is what the name was made of, when the path has no dot and
no name of another collection begins like the side tables of this one.
-/

namespace BlueDB.Collections

theorem stripPrefix_eq_some {pre s rest : List Char} :
    stripPrefix pre s = some rest ↔ s = pre ++ rest := by
  unfold stripPrefix
  constructor
  · intro h
    split_ifs at h with hpre
    obtain ⟨tail, rfl⟩ := hpre
    obtain rfl := Option.some.inj h
    rw [List.drop_left]
  · rintro rfl
    rw [if_pos (List.prefix_append _ _), List.drop_left]

theorem flattened_eq {path : String} (h : '.' ∉ path.toList) : flattened path = path := by
  unfold flattened
  have hmap : path.toList.map (fun c => if c = '.' then '_' else c) = path.toList.map id := by
    apply List.map_congr_left
    intro c hc
    have hdot : c ≠ '.' := fun heq => h (heq ▸ hc)
    rw [if_neg hdot, id]
  rw [hmap, List.map_id, String.ofList_toList]

theorem not_mem_flattened (path : String) : '.' ∉ (flattened path).toList := by
  unfold flattened
  rw [String.toList_ofList]
  intro h
  obtain ⟨c, -, hc⟩ := List.mem_map.mp h
  split_ifs at hc with hdot
  · exact absurd hc (by decide)
  · exact hdot hc

theorem columnPath_derivedCol (path : String) :
    columnPath (derivedCol path) = some (flattened path) := by
  unfold columnPath derivedCol
  have hcompound : stripPrefix "__cidxm_".toList ("__cidx_" ++ flattened path).toList = none := by
    unfold stripPrefix
    rw [if_neg]
    simp [String.toList_append]
  have hsingle : stripPrefix "__cidx_".toList ("__cidx_" ++ flattened path).toList =
      some (flattened path).toList := by
    rw [stripPrefix_eq_some, String.toList_append]
  rw [hcompound, hsingle]
  simp

/-- The path of an index column is read off its name exactly when it has no dot. -/
theorem columnPath_derivedCol_iff {path : String} :
    columnPath (derivedCol path) = some path ↔ '.' ∉ path.toList := by
  rw [columnPath_derivedCol]
  constructor
  · intro h
    rw [← Option.some.inj h]
    exact not_mem_flattened path
  · intro h
    rw [flattened_eq h]

theorem columnPaths_of_columnPath {column path : String} (h : columnPath column = some path) :
    columnPaths column = none := by
  unfold columnPath at h
  split_ifs at h with hcompound
  unfold columnPaths
  rw [Option.not_isSome_iff_eq_none.mp hcompound]
  rfl

theorem sideTable_injective (coll : String) :
    Function.Injective fun field => sidePrefix coll ++ field := by
  intro field field' h
  have hlists := congrArg String.toList h
  simp only [String.toList_append, List.append_cancel_left_eq] at hlists
  exact String.toList_inj.mp hlists

theorem coll_ne_sideTable (coll field : String) : coll ≠ sidePrefix coll ++ field := by
  intro h
  have hlength := congrArg (fun s : String => s.toList.length) h
  simp [sidePrefix, String.toList_append] at hlength

theorem stripSide_eq_some {coll name : String} {rest : List Char} :
    stripPrefix (sidePrefix coll).toList name.toList = some rest ↔
      name = sidePrefix coll ++ String.ofList rest := by
  rw [stripPrefix_eq_some, ← String.toList_inj, String.toList_append, String.toList_ofList]

/-- The tables of the one collection do not begin like side tables of the other. -/
def Apart (c c' : String) : Prop :=
  ¬(sidePrefix c).toList <+: (sidePrefix c').toList ∧
    ¬(sidePrefix c').toList <+: (sidePrefix c).toList

theorem Apart.symm {c c' : String} (h : Apart c c') : Apart c' c := ⟨h.2, h.1⟩

theorem Apart.coll_ne {c c' : String} (h : Apart c c') (field : String) :
    c' ≠ sidePrefix c ++ field := by
  rintro rfl
  apply h.1
  unfold sidePrefix
  simp only [String.toList_append, List.append_assoc]
  rw [List.prefix_append_right_inj]
  exact List.prefix_append _ _

theorem Apart.side_ne {c c' : String} (h : Apart c c') (field field' : String) :
    sidePrefix c ++ field ≠ sidePrefix c' ++ field' := by
  intro heq
  have hlists := congrArg String.toList heq
  simp only [String.toList_append] at hlists
  have hleft : (sidePrefix c).toList <+: (sidePrefix c').toList ++ field'.toList :=
    ⟨field.toList, hlists⟩
  rcases List.prefix_or_prefix_of_prefix hleft (List.prefix_append _ _) with hpre | hpre
  · exact h.1 hpre
  · exact h.2 hpre

end BlueDB.Collections
