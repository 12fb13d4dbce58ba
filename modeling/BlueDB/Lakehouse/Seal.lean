import BlueDB.Lakehouse.Lake

/-!
# Sealing beside commits

What the mirror shows and what is left in the log are together the rows as they
were last committed. A seal keeps this when no entry comes in between its two
scans under the highest number of the first, and when commits of one row reach
the log in the order of their numbers.
-/

namespace BlueDB.Lakehouse

open Sql
open Sql.Overlay (RowChange)
open Changelog (last replay)

variable {ι : Type} {G : Engine}

theorem collapseLww_apply (entries : List (CdcEntry G)) (k : RowKey G) :
    collapseLww entries k = last (changes entries) k := by
  induction entries using List.reverseRecOn with
  | nil => rfl
  | append_singleton entries p ih =>
    have hchanges : changes (entries ++ [p]) = changes entries ++ [(rowChange p).2] := by
      simp [changes]
    have hcollapse : collapseLww (entries ++ [p]) =
        Function.update (collapseLww entries) (rowKey p) (some p.2.row) := by
      unfold collapseLww
      rw [List.foldl_append]
      rfl
    rw [hchanges, hcollapse, Changelog.last_append, Changelog.last_singleton, ← ih]
    by_cases hk : k = rowKey p
    · subst k
      simp [rowChange]
    · simp [rowChange, hk, Ne.symm hk]

theorem le_watermark {entries : List (CdcEntry G)} {p : CdcEntry G} (hp : p ∈ entries) :
    p.1 ≤ watermark entries :=
  Sequencer.le_foldl_max (List.mem_map_of_mem hp)

theorem scanCdc_zero {log : OrderedMap ℕ (RowChange G)} (h : ∀ p ∈ log.entries, 0 < p.1) :
    scanCdc log 0 = log.entries :=
  List.filter_eq_self.mpr fun p hp => decide_eq_true (h p hp)

theorem mem_tables {entries : List (CdcEntry G)} {t : Name} :
    t ∈ tables entries ↔ ∃ p ∈ entries, p.2.table = t := by
  unfold tables
  rw [List.mem_dedup, List.mem_map]

theorem last_changes_eq_none {entries : List (CdcEntry G)} {k : RowKey G} :
    last (changes entries) k = none ↔ ∀ p ∈ entries, rowKey p ≠ k := by
  unfold changes
  rw [Changelog.last_map_eq_none]
  exact List.forall_mem_map

/-- Of a log in two parts, of which the second has the higher numbers for each row,
the second decides. -/
theorem last_changes_merge {l l₁ l₂ : List (CdcEntry G)} (hl : l.Pairwise fun p q => p.1 < q.1)
    (hl₁ : l₁.Pairwise fun p q => p.1 < q.1) (hl₂ : l₂.Pairwise fun p q => p.1 < q.1)
    (hmem : ∀ p, p ∈ l ↔ p ∈ l₁ ∨ p ∈ l₂)
    (hlt : ∀ p ∈ l₁, ∀ q ∈ l₂, rowKey p = rowKey q → p.1 < q.1) (k : RowKey G) :
    last (changes l) k = (last (changes l₂) k).or (last (changes l₁) k) := by
  unfold changes
  apply Changelog.last_merge
  case hl => exact List.pairwise_map.mpr hl
  case hl₁ => exact List.pairwise_map.mpr hl₁
  case hl₂ => exact List.pairwise_map.mpr hl₂
  case hmem =>
    intro c
    simp only [List.mem_map, hmem, or_and_right, exists_or]
  case hlt =>
    intro c hc c' hc' hkey
    obtain ⟨p, hp, rfl⟩ := List.mem_map.mp hc
    obtain ⟨q, hq, rfl⟩ := List.mem_map.mp hc'
    exact hlt p hp q hq hkey

namespace Lake

section Admits

variable [DecidableEq ι]

/-- A commit appends a change of a row above those that the log has for it; a seal
finds no number up to its watermark that it has not read. -/
def Admits (l : Lake ι G) : LakeEvent ι G → Prop
  | .writer ev =>
    ∀ p ∈ appended l.writer ev, ∀ q ∈ l.writer.log.entries, rowKey q = rowKey p → q.1 < p.1
  | .collect =>
    match l.phase with
    | .publishing entries [] =>
      ∀ p ∈ scanCdc l.writer.log 0, p.1 ≤ watermark entries → p.1 ∈ entries.map Prod.fst
    | _ => True
  | _ => True

instance (l : Lake ι G) (ev : LakeEvent ι G) : Decidable (l.Admits ev) := by
  unfold Admits
  split
  · infer_instance
  · split <;> infer_instance
  · infer_instance

/-- Every step of the run is such a step. -/
def Admitted (l : Lake ι G) : List (LakeEvent ι G) → Prop
  | [] => True
  | ev :: events => l.Admits ev ∧ (l.step ev).Admitted events

instance decidableAdmitted (l : Lake ι G) :
    (events : List (LakeEvent ι G)) → Decidable (l.Admitted events)
  | [] => instDecidableTrue
  | ev :: events =>
    have := decidableAdmitted (l.step ev) events
    inferInstanceAs (Decidable (l.Admits ev ∧ (l.step ev).Admitted events))

end Admits

/-- A seal that publishes has read entries that are still in the log, and the mirror
shows them for the tables that are done. -/
structure Publishing (l : Lake ι G) (entries : List (CdcEntry G)) (todo : List Name) : Prop where
  ascending : entries.Pairwise fun p q => p.1 < q.1
  logged : ∀ p ∈ entries, p ∈ l.writer.log.entries
  published : ∀ p ∈ entries, p.2.table ∉ todo → p ∈ l.published
  shown : ∀ k : RowKey G, k.1 ∉ todo → ∀ v, last (changes entries) k = some v → l.mirror k = v

/-- The numbers to delete are those of the entries it has published, and what else
the log has for their rows comes after them. -/
structure Collected (l : Lake ι G) (entries : List (CdcEntry G)) (numbers : List ℕ) : Prop
    extends Publishing l entries [] where
  mem_numbers : ∀ n, n ∈ numbers ↔ ∃ p ∈ entries, p.1 = n
  later : ∀ p ∈ l.writer.log.entries, p.1 ∉ numbers → ∀ q ∈ entries, rowKey q = rowKey p →
    q.1 < p.1

def Sealing (l : Lake ι G) : Prop :=
  match l.phase with
  | .idle => True
  | .publishing entries todo => l.Publishing entries todo
  | .collected _ numbers => ∃ entries, l.Collected entries numbers

/-- The mirror with the log over it is the rows as they were last committed, over
the mirror `m₀` of the start. -/
structure Settled (m₀ : Mirror G) (l : Lake ι G) : Prop where
  numbered : (sequencer l.writer).Numbered
  current : ∀ k, (last (changes l.writer.log.entries) k).getD (l.mirror k) =
    replay m₀ (changes l.committed) k
  sealing : l.Sealing

namespace Settled

variable {m₀ : Mirror G} {l : Lake ι G}

theorem log_pos (h : Settled m₀ l) : ∀ p ∈ l.writer.log.entries, 0 < p.1 := h.numbered.log_pos

theorem scan (h : Settled m₀ l) : Settled m₀ l.scan := by
  unfold Lake.scan
  split
  case h_1 p rest _ hscan =>
    refine ⟨h.numbered, h.current, ?_⟩
    rw [scanCdc_zero h.log_pos] at hscan
    have htodo : ∀ q ∈ p :: rest, q.2.table ∈ tables (p :: rest) := fun q hq =>
      mem_tables.mpr ⟨q, hq, rfl⟩
    constructor
    case ascending => exact hscan ▸ l.writer.log.ascending
    case logged =>
      intro q hq
      exact hscan.symm ▸ hq
    case published =>
      intro q hq hdone
      exact absurd (htodo q hq) hdone
    case shown =>
      intro k hdone v hlast
      have hnone : last (changes (p :: rest)) k = none := by
        apply last_changes_eq_none.mpr
        intro q hq hkey
        exact hdone (congrArg Prod.fst hkey ▸ htodo q hq)
      exact absurd (hlast.symm.trans hnone) (by simp)
  case h_2 => exact h

theorem publish (h : Settled m₀ l) (t : Name) : Settled m₀ (l.publish t) := by
  unfold Lake.publish
  split
  case h_1 entries todo hphase =>
    split_ifs with ht
    case neg => exact h
    case pos =>
      have hpub : l.Publishing entries todo := by
        have hsealing := h.sealing
        unfold Sealing at hsealing
        rwa [hphase] at hsealing
      refine ⟨h.numbered, fun k => ?_, ?_⟩
      · rw [← h.current k]
        cases hlog : last (changes l.writer.log.entries) k with
        | some v => rfl
        | none =>
          -- a row that the log does not have was not published either
          have hnone : last (changes entries) k = none := by
            apply last_changes_eq_none.mpr
            intro p hp
            exact last_changes_eq_none.mp hlog p (hpub.logged p hp)
          simp [collapseLww_apply, hnone]
      · refine ⟨hpub.ascending, hpub.logged, ?_, ?_⟩
        · intro p hp hdone
          by_cases htable : p.2.table = t
          · exact List.mem_append_right _ (List.mem_filter.mpr ⟨hp, decide_eq_true htable⟩)
          · apply List.mem_append_left
            apply hpub.published p hp
            intro htodo
            exact hdone (List.mem_filter.mpr ⟨htodo, decide_eq_true htable⟩)
        · intro k hdone v hlast
          by_cases hk : k.1 = t
          · simp [hk, collapseLww_apply, hlast]
          · simp only [hk, if_false]
            apply hpub.shown k _ v hlast
            intro htodo
            exact hdone (List.mem_filter.mpr ⟨htodo, decide_eq_true hk⟩)
  case h_2 => exact h

theorem collect [DecidableEq ι] (h : Settled m₀ l) (hadmits : l.Admits .collect) :
    Settled m₀ l.collect := by
  unfold Lake.collect
  split
  case h_1 entries hphase =>
    have hpub : l.Publishing entries [] := by
      have hsealing := h.sealing
      unfold Sealing at hsealing
      rwa [hphase] at hsealing
    have hread : ∀ p ∈ l.writer.log.entries, p.1 ≤ watermark entries →
        ∃ q ∈ entries, q.1 = p.1 := by
      intro p hp hle
      unfold Admits at hadmits
      rw [hphase, scanCdc_zero h.log_pos] at hadmits
      exact List.mem_map.mp (hadmits p hp hle)
    refine ⟨h.numbered, h.current, entries, ⟨hpub.ascending, hpub.logged, hpub.published,
      hpub.shown⟩, ?_, ?_⟩
    · intro n
      rw [scanCdc_zero h.log_pos]
      constructor
      · intro hn
        obtain ⟨p, hp, rfl⟩ := List.mem_map.mp hn
        obtain ⟨hp, hle⟩ := List.mem_filter.mp hp
        exact hread p hp (of_decide_eq_true hle)
      · rintro ⟨p, hp, rfl⟩
        apply List.mem_map_of_mem
        exact List.mem_filter.mpr ⟨hpub.logged p hp, decide_eq_true (le_watermark hp)⟩
    · intro p hp hnumber q hq _
      rw [scanCdc_zero h.log_pos] at hnumber
      have hgt : ¬p.1 ≤ watermark entries := by
        intro hle
        exact hnumber (List.mem_map_of_mem (List.mem_filter.mpr ⟨hp, decide_eq_true hle⟩))
      exact (le_watermark hq).trans_lt (not_le.mp hgt)
  case h_2 => exact h

theorem delete (h : Settled m₀ l) : Settled m₀ l.delete := by
  unfold Lake.delete
  split
  case h_1 w numbers hphase =>
    obtain ⟨entries, hcol⟩ : ∃ entries, l.Collected entries numbers := by
      have hsealing := h.sealing
      unfold Sealing at hsealing
      rwa [hphase] at hsealing
    refine ⟨h.numbered.trim numbers, fun k => ?_, trivial⟩
    have hmem : ∀ p, p ∈ l.writer.log.entries ↔
        p ∈ entries ∨ p ∈ (l.writer.log.eraseAll numbers).entries := by
      intro p
      rw [OrderedMap.mem_eraseAll]
      constructor
      · intro hp
        by_cases hnumber : p.1 ∈ numbers
        · obtain ⟨q, hq, hnum⟩ := (hcol.mem_numbers p.1).mp hnumber
          have heq := OrderedMap.entry_eq l.writer.log.ascending (hcol.logged q hq) hp hnum
          exact Or.inl (heq ▸ hq)
        · exact Or.inr ⟨hp, hnumber⟩
      · rintro (hp | hp)
        · exact hcol.logged p hp
        · exact hp.1
    have hsplit := last_changes_merge l.writer.log.ascending hcol.ascending
      (l.writer.log.eraseAll numbers).ascending hmem (fun q hq p hp hkey =>
        hcol.later p (OrderedMap.mem_eraseAll.mp hp).1 (OrderedMap.mem_eraseAll.mp hp).2 q hq
          hkey) k
    rw [← h.current k, hsplit]
    change (last (changes (l.writer.log.eraseAll numbers).entries) k).getD _ = _
    cases last (changes (l.writer.log.eraseAll numbers).entries) k with
    | some v => rfl
    | none =>
      cases hlast : last (changes entries) k with
      | some v => exact hcol.shown k List.not_mem_nil v hlast
      | none => rfl
  case h_2 => exact h

theorem writerStep [DecidableEq ι] (h : Settled m₀ l) (ev : LifeEvent ι G)
    (hadmits : l.Admits (.writer ev)) : Settled m₀ (l.writerStep ev) := by
  have hlogs := logs_lifeStep h.numbered ev
  have hlogged : ∀ p, p ∈ l.writer.log.entries → p ∈ (l.writer.lifeStep ev).log.entries :=
    fun p hp => (hlogs.mem p).mpr (Or.inl hp)
  refine ⟨hlogs.numbered, fun k => ?_, ?_⟩
  · have hsplit := last_changes_merge (l.writer.lifeStep ev).log.ascending
      l.writer.log.ascending hlogs.ascending hlogs.mem
      (fun q hq p hp hkey => hadmits p hp q hq hkey) k
    have hchanges : changes (l.committed ++ appended l.writer ev) =
        changes l.committed ++ changes (appended l.writer ev) := by
      simp [changes]
    change (last (changes (l.writer.lifeStep ev).log.entries) k).getD (l.mirror k) =
      replay m₀ (changes (l.committed ++ appended l.writer ev)) k
    rw [hchanges, Changelog.replay_append, Changelog.replay_apply, ← h.current k, hsplit]
    cases last (changes (appended l.writer ev)) k <;> rfl
  · cases ev with
    | restart => trivial
    | conn isEnabled ev =>
      have hsealing := h.sealing
      unfold Sealing at hsealing ⊢
      change match l.phase with
        | .idle => True
        | .publishing entries todo => (l.writerStep (.conn isEnabled ev)).Publishing entries todo
        | .collected _ numbers =>
          ∃ entries, (l.writerStep (.conn isEnabled ev)).Collected entries numbers
      split at hsealing
      · trivial
      · exact ⟨hsealing.ascending, fun p hp => hlogged p (hsealing.logged p hp),
          hsealing.published, hsealing.shown⟩
      · obtain ⟨entries, hcol⟩ := hsealing
        refine ⟨entries, ⟨hcol.ascending, fun p hp => hlogged p (hcol.logged p hp),
          hcol.published, hcol.shown⟩, hcol.mem_numbers, ?_⟩
        intro p hp hnumber q hq hkey
        rcases (hlogs.mem p).mp hp with hp | hp
        · exact hcol.later p hp hnumber q hq hkey
        · exact hadmits p hp q (hcol.logged q hq) hkey

theorem step [DecidableEq ι] (h : Settled m₀ l) (ev : LakeEvent ι G) (hadmits : l.Admits ev) :
    Settled m₀ (l.step ev) := by
  cases ev with
  | writer ev => exact h.writerStep ev hadmits
  | scan => exact h.scan
  | publish t => exact h.publish t
  | collect => exact h.collect hadmits
  | delete => exact h.delete
  | abort => exact ⟨h.numbered, h.current, trivial⟩

theorem run [DecidableEq ι] (h : Settled m₀ l) {events : List (LakeEvent ι G)}
    (hadmitted : l.Admitted events) : Settled m₀ (l.run events) := by
  induction events generalizing l with
  | nil => exact h
  | cons ev events ih => exact ih (h.step ev hadmitted.1) hadmitted.2

/-- An entry leaves the log once its seal has published it. -/
theorem removed [DecidableEq ι] (h : Settled m₀ l) (ev : LakeEvent ι G) {p : CdcEntry G}
    (hp : p ∈ l.writer.log.entries) (hgone : p ∉ (l.step ev).writer.log.entries) :
    p ∈ l.published := by
  cases ev with
  | writer ev => exact absurd (((logs_lifeStep h.numbered ev).mem p).mpr (Or.inl hp)) hgone
  | scan =>
    have hlog : l.scan.writer = l.writer := by
      unfold Lake.scan
      split <;> rfl
    exact absurd (hlog.symm ▸ hp) hgone
  | publish t =>
    have hlog : (l.publish t).writer = l.writer := by
      unfold Lake.publish
      split
      · split_ifs <;> rfl
      · rfl
    exact absurd (hlog.symm ▸ hp) hgone
  | collect =>
    have hlog : l.collect.writer = l.writer := by
      unfold Lake.collect
      split <;> rfl
    exact absurd (hlog.symm ▸ hp) hgone
  | abort => exact absurd hp hgone
  | delete =>
    change p ∉ l.delete.writer.log.entries at hgone
    unfold Lake.delete at hgone
    split at hgone
    case h_1 w numbers hphase =>
      obtain ⟨entries, hcol⟩ : ∃ entries, l.Collected entries numbers := by
        have hsealing := h.sealing
        unfold Sealing at hsealing
        rwa [hphase] at hsealing
      have hnumber : p.1 ∈ numbers := by
        by_contra hkept
        exact hgone (OrderedMap.mem_eraseAll.mpr ⟨hp, hkept⟩)
      obtain ⟨q, hq, hnum⟩ := (hcol.mem_numbers p.1).mp hnumber
      have heq := OrderedMap.entry_eq l.writer.log.ascending (hcol.logged q hq) hp hnum
      exact hcol.published p (heq ▸ hq) List.not_mem_nil
    case h_2 => exact absurd hp hgone

end Settled

section QuietSeal

variable [DecidableEq ι] {l : Lake ι G}

theorem run_publish (order : List Name) {entries : List (CdcEntry G)} {todo : List Name}
    (hphase : l.phase = .publishing entries todo) :
    (l.run (order.map .publish)).phase = .publishing entries (todo.filter (· ∉ order)) ∧
      (l.run (order.map .publish)).writer = l.writer ∧
      (l.run (order.map .publish)).committed = l.committed := by
  induction order generalizing l todo with
  | nil => simp [Lake.run, hphase]
  | cons t order ih =>
    have hstep : (l.publish t).phase = .publishing entries (todo.filter (· ≠ t)) ∧
        (l.publish t).writer = l.writer ∧ (l.publish t).committed = l.committed := by
      unfold Lake.publish
      simp only [hphase]
      by_cases ht : t ∈ todo
      · simp [ht]
      · have hsame : todo.filter (· ≠ t) = todo := by
          apply List.filter_eq_self.mpr
          intro t' ht'
          exact decide_eq_true fun heq => ht (heq ▸ ht')
        simp only [ht, if_false, hsame]
        exact ⟨hphase, trivial, trivial⟩
    obtain ⟨hrun, hwriter, hcommitted⟩ := ih hstep.1
    refine ⟨?_, hwriter.trans hstep.2.1, hcommitted.trans hstep.2.2⟩
    refine hrun.trans (congrArg _ ?_)
    rw [List.filter_filter]
    apply List.filter_congr
    intro t' _
    by_cases ht' : t' = t <;> simp [ht']

theorem run_publish_idle (order : List Name) (hphase : l.phase = .idle) :
    l.run (order.map .publish) = l := by
  induction order with
  | nil => rfl
  | cons t order ih =>
    have hstep : l.publish t = l := by
      unfold Lake.publish
      rw [hphase]
    change (l.publish t).run _ = l
    rw [hstep, ih]

theorem admitted_publish (l : Lake ι G) (order : List Name) :
    l.Admitted (order.map .publish) := by
  induction order generalizing l with
  | nil => trivial
  | cons t order ih => exact ⟨trivial, ih _⟩

/-- Nothing is left in the log of a writer whose commits wait. -/
theorem Settled.alone {m₀ : Mirror G} (h : Settled m₀ l) (hidle : l.phase = .idle)
    {order : List Name} (horder : ∀ p ∈ l.writer.log.entries, p.2.table ∈ order) :
    (l.run (quietSeal order)).writer.log.entries = [] ∧ Settled m₀ (l.run (quietSeal order)) ∧
      (l.run (quietSeal order)).committed = l.committed := by
  have hrun : l.run (quietSeal order) = ((l.scan.run (order.map .publish)).collect).delete := by
    unfold Lake.quietSeal
    rw [run_append]
    rfl
  have hscan := scanCdc_zero h.log_pos
  rw [hrun]
  cases hlog : l.writer.log.entries with
  | nil =>
    have hsame : l.scan = l := by
      unfold Lake.scan
      rw [hidle, hscan, hlog]
    have hend : l.collect.delete = l := by
      unfold Lake.collect
      rw [hidle]
      unfold Lake.delete
      rw [hidle]
    rw [hsame, run_publish_idle order hidle, hend]
    exact ⟨hlog, h, rfl⟩
  | cons p rest =>
    have hstart : l.scan.phase = .publishing l.writer.log.entries (tables l.writer.log.entries) ∧
        l.scan.writer = l.writer ∧ l.scan.committed = l.committed := by
      unfold Lake.scan
      rw [hidle, hscan, hlog]
      exact ⟨rfl, rfl, rfl⟩
    obtain ⟨hphase, hwriter, hcommitted⟩ := run_publish order hstart.1
    have hdone : (tables l.writer.log.entries).filter (· ∉ order) = [] := by
      apply List.filter_eq_nil_iff.mpr
      intro t ht
      obtain ⟨q, hq, rfl⟩ := mem_tables.mp ht
      simp [horder q hq]
    rw [hdone] at hphase
    have hpublished := h.scan.run (admitted_publish l.scan order)
    generalize l.scan.run (order.map .publish) = l' at *
    have hwriter' : l'.writer = l.writer := hwriter.trans hstart.2.1
    have hcollects : l'.Admits .collect := by
      unfold Admits
      rw [hphase, hwriter', hscan]
      exact fun q hq _ => List.mem_map_of_mem hq
    refine ⟨?_, (hpublished.collect hcollects).delete, ?_⟩
    · unfold Lake.collect
      rw [hphase]
      unfold Lake.delete
      apply List.eq_nil_iff_forall_not_mem.mpr
      intro q hq
      obtain ⟨hq, hkept⟩ := OrderedMap.mem_eraseAll.mp hq
      rw [hwriter'] at hq hkept
      rw [hscan] at hkept
      apply hkept
      apply List.mem_map_of_mem
      exact List.mem_filter.mpr ⟨hq, decide_eq_true (le_watermark hq)⟩
    · unfold Lake.collect
      rw [hphase]
      exact hcommitted.trans hstart.2.2

end QuietSeal

theorem Settled.opened (live : Store G) (now : ℤ) (options : ι → ConnOptions) (mirror : Mirror G) :
    Settled mirror (Lake.opened live now options mirror) := by
  refine ⟨Sequencer.Numbered.of_held_nil (fun _ => rfl) nofun nofun, fun k => rfl, trivial⟩

variable [DecidableEq ι]

theorem Admitted.append {l : Lake ι G} {events events' : List (LakeEvent ι G)}
    (h : l.Admitted (events ++ events')) :
    l.Admitted events ∧ (l.run events).Admitted events' := by
  induction events generalizing l with
  | nil => exact ⟨trivial, h⟩
  | cons ev events ih => exact ⟨⟨h.1, (ih h.2).1⟩, (ih h.2).2⟩

end Lake

namespace Ints

open Sql.Ints (engine)

/-- The second row comes during a seal that stops before it deletes, and a third one
after it. -/
def sealedAgain : List (LakeEvent (Fin 2) engine) :=
  unwritten 0 Ints.createTable ++ [write 0] ++ unwritten 0 (Ints.insert [1, 10]) ++ [write 0] ++
    unwritten 1 (Ints.insert [2, 20]) ++ [.scan, write 1, .publish Ints.t, .collect, .abort] ++
    unwritten 0 (Ints.insert [3, 30]) ++ [write 0]

instance : (p : SealPhase engine) → Decidable (p = .idle)
  | .idle => .isTrue rfl
  | .publishing _ _ => .isFalse nofun
  | .collected _ _ => .isFalse nofun

/-- The first commit has its number before the second, and its batch after the seal
has read the entry of the second. -/
def overtaken : List (LakeEvent (Fin 2) engine) :=
  unwritten 0 Ints.createTable ++ [write 0] ++ unwritten 0 (Ints.insert [1, 10]) ++
    unwritten 1 (Ints.insert [2, 20]) ++ [write 1, .scan, .publish Ints.t, write 0]

end Ints

end BlueDB.Lakehouse
