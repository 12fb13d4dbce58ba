import BlueDB.Lakehouse.Lake

/-!
# The numbers of the change log

The counter of the change log is in memory. A new writer starts it from the log,
of which a seal may have removed the highest numbers, or all. Numbers are taken
before the batch is written, so that commits may write theirs in another order.
-/

namespace BlueDB.Lakehouse

open Sql
open Sql.Overlay (RowChange)

variable {ι : Type} {G : Engine}

theorem foldl_max_mem {l : List ℕ} (hl : l ≠ []) : l.foldl max 0 ∈ l := by
  induction l using List.reverseRecOn with
  | nil => exact absurd rfl hl
  | append_singleton l n ih =>
    rw [List.foldl_append]
    change max (l.foldl max 0) n ∈ _
    rcases max_choice (l.foldl max 0) n with hmax | hmax
    · rw [hmax]
      by_cases hnil : l = []
      · subst hnil
        have hzero : n = 0 := Nat.eq_zero_of_le_zero (max_eq_left_iff.mp hmax)
        simp [hzero]
      · exact List.mem_append_left _ (ih hnil)
    · rw [hmax]
      exact List.mem_append_right _ (List.mem_singleton_self n)

namespace Lake

section Orderly

variable [DecidableEq ι]

/-- A commit writes its entries while no other one holds a lower number, and a number
is not taken from a log of which a seal has removed the highest one. -/
def Orderly (l : Lake ι G) : LakeEvent ι G → Prop
  | .writer ev =>
    (∀ q ∈ appended l.writer ev, ∀ j, ∀ p ∈ SessionPhase.stamped (l.writer.phase j),
      p ∉ appended l.writer ev → q.1 < p.1) ∧
    ((takes l.writer ev).isSome → l.writer.cdcSeq = none →
      ∀ w ∈ l.sealed, w ≤ maxPersistedCdcSeq l.writer.log)
  | _ => True

instance [Fintype ι] (l : Lake ι G) (ev : LakeEvent ι G) : Decidable (l.Orderly ev) :=
  match ev with
  | .writer _ => @instDecidableAnd _ _ inferInstance inferInstance
  | .scan | .publish _ | .collect | .delete | .abort => isTrue trivial

/-- Every step of the run is such a step. -/
def AlwaysOrderly (l : Lake ι G) : List (LakeEvent ι G) → Prop
  | [] => True
  | ev :: events => l.Orderly ev ∧ (l.step ev).AlwaysOrderly events

instance decidableAlwaysOrderly [Fintype ι] (l : Lake ι G) :
    (events : List (LakeEvent ι G)) → Decidable (l.AlwaysOrderly events)
  | [] => instDecidableTrue
  | ev :: events =>
    have := decidableAlwaysOrderly (l.step ev) events
    inferInstanceAs (Decidable (l.Orderly ev ∧ (l.step ev).AlwaysOrderly events))

theorem AlwaysOrderly.append {l : Lake ι G} {events events' : List (LakeEvent ι G)}
    (h : l.AlwaysOrderly (events ++ events')) :
    l.AlwaysOrderly events ∧ (l.run events).AlwaysOrderly events' := by
  induction events generalizing l with
  | nil => exact ⟨trivial, h⟩
  | cons ev events ih => exact ⟨⟨h.1, (ih h.2).1⟩, (ih h.2).2⟩

end Orderly

/-- What the seal has read, and then removes, was committed. -/
def Reads (l : Lake ι G) : Prop :=
  match l.phase with
  | .idle => True
  | .publishing entries _ => entries ≠ [] ∧ ∀ p ∈ entries, p ∈ l.committed
  | .collected w numbers => (∃ q ∈ l.committed, q.1 = w) ∧ ∀ n ∈ numbers, n ≤ w

/-- Every number taken is above those committed, and so is every number that will be. -/
structure Counted (l : Lake ι G) : Prop where
  numbered : (sequencer l.writer).Numbered
  logged : ∀ q ∈ l.writer.log.entries, q ∈ l.committed
  kept : ∀ q ∈ l.committed, q ∈ l.writer.log.entries ∨ ∃ w ∈ l.sealed, q.1 ≤ w
  watermarks : ∀ w ∈ l.sealed, ∃ q ∈ l.committed, q.1 = w
  counter : ∀ n, l.writer.cdcSeq = some n → ∀ q ∈ l.committed, q.1 ≤ n
  above : ∀ i, ∀ p ∈ (sequencer l.writer).held i, ∀ q ∈ l.committed, q.1 < p.1
  reads : l.Reads

namespace Counted

variable {l : Lake ι G}

theorem opened (live : Store G) (now : ℤ) (options : ι → ConnOptions) (mirror : Mirror G) :
    (Lake.opened live now options mirror).Counted where
  numbered := .of_held_nil (fun _ => rfl) nofun nofun
  logged := nofun
  kept := nofun
  watermarks := nofun
  counter := nofun
  above := nofun
  reads := trivial

theorem scan (h : l.Counted) : l.scan.Counted := by
  unfold Lake.scan
  split
  case h_1 p rest _ hscan =>
    have hread : ∀ q ∈ p :: rest, q ∈ l.committed := by
      intro q hq
      rw [← hscan] at hq
      exact h.logged q (List.mem_filter.mp hq).1
    exact { h with reads := ⟨List.cons_ne_nil _ _, hread⟩ }
  case h_2 => exact h

theorem publish (h : l.Counted) (t : Name) : (l.publish t).Counted := by
  have hreads := h.reads
  unfold Reads at hreads
  unfold Lake.publish
  split
  case h_1 entries todo hphase =>
    rw [hphase] at hreads
    split_ifs
    · exact { h with reads := hreads }
    · exact h
  case h_2 => exact h

theorem collect (h : l.Counted) : l.collect.Counted := by
  have hreads := h.reads
  unfold Reads at hreads
  unfold Lake.collect
  split
  case h_1 entries hphase =>
    rw [hphase] at hreads
    obtain ⟨hne, hread⟩ := hreads
    have hmax : watermark entries ∈ entries.map Prod.fst :=
      foldl_max_mem (by simpa using hne)
    obtain ⟨p, hp, hw⟩ := List.mem_map.mp hmax
    refine { h with reads := ⟨⟨p, hread p hp, hw⟩, fun n hn => ?_⟩ }
    obtain ⟨q, hq, rfl⟩ := List.mem_map.mp hn
    exact of_decide_eq_true (List.mem_filter.mp hq).2
  case h_2 => exact h

theorem delete (h : l.Counted) : l.delete.Counted := by
  have hreads := h.reads
  unfold Reads at hreads
  unfold Lake.delete
  split
  case h_1 w numbers hphase =>
    rw [hphase] at hreads
    obtain ⟨hw, hle⟩ := hreads
    constructor
    case numbered => exact h.numbered.trim numbers
    case logged => exact fun q hq => h.logged q (OrderedMap.mem_eraseAll.mp hq).1
    case kept =>
      intro q hq
      rcases h.kept q hq with hlog | ⟨w', hw', hle'⟩
      · by_cases hnumber : q.1 ∈ numbers
        · exact Or.inr ⟨w, List.mem_append_right _ (List.mem_singleton_self w), hle _ hnumber⟩
        · exact Or.inl (OrderedMap.mem_eraseAll.mpr ⟨hlog, hnumber⟩)
      · exact Or.inr ⟨w', List.mem_append_left _ hw', hle'⟩
    case watermarks =>
      intro w' hw'
      rcases List.mem_append.mp hw' with hw' | hw'
      · exact h.watermarks w' hw'
      · exact List.mem_singleton.mp hw' ▸ hw
    case counter => exact h.counter
    case above => exact h.above
    case reads => trivial
  case h_2 => exact h

variable [DecidableEq ι]

omit [DecidableEq ι] in
theorem committed_le (h : l.Counted) (hseed : l.writer.cdcSeq = none →
    ∀ w ∈ l.sealed, w ≤ maxPersistedCdcSeq l.writer.log) :
    ∀ q ∈ l.committed, q.1 ≤ (sequencer l.writer).current := by
  intro q hq
  cases hcounter : l.writer.cdcSeq with
  | some n =>
    have hcurrent : (sequencer l.writer).current = n := by
      unfold Sequencer.current
      rw [show (sequencer l.writer).counter = some n from hcounter]
      rfl
    rw [hcurrent]
    exact h.counter n hcounter q hq
  | none =>
    have hcurrent : (sequencer l.writer).current = maxPersistedCdcSeq l.writer.log := by
      unfold Sequencer.current
      rw [show (sequencer l.writer).counter = none from hcounter]
      rfl
    rw [hcurrent]
    rcases h.kept q hq with hlog | ⟨w, hw, hle⟩
    · exact Sequencer.le_highest hlog
    · exact hle.trans (hseed hcounter w hw)

theorem numbers_step (h : l.Counted) (ev : LifeEvent ι G) (horderly : l.Orderly (.writer ev)) :
    (∀ n, (l.writer.lifeStep ev).cdcSeq = some n →
      ∀ q ∈ l.committed ++ appended l.writer ev, q.1 ≤ n) ∧
    ∀ i, ∀ p ∈ (sequencer (l.writer.lifeStep ev)).held i,
      ∀ q ∈ l.committed ++ appended l.writer ev, q.1 < p.1 := by
  rcases sequencer_lifeStep l.writer ev with ⟨hstep, hadded, -⟩ |
    ⟨i, change, hstep, hadded, htakes, -⟩ | ⟨i, hstep, hadded, -⟩ | ⟨hstep, hadded, -⟩
  all_goals
    have hcounter : (l.writer.lifeStep ev).cdcSeq = (sequencer (l.writer.lifeStep ev)).counter :=
        rfl
    rw [hcounter, hstep]
  case inl =>
    rw [hadded, List.append_nil]
    exact ⟨h.counter, h.above⟩
  case inr.inl =>
    have hle := h.committed_le (horderly.2 (by rw [htakes]; rfl))
    rw [hadded, List.append_nil]
    constructor
    · intro n hn q hq
      obtain rfl := Option.some.inj hn
      exact (hle q hq).trans (Nat.le_succ _)
    · intro j p hp q hq
      rcases Sequencer.Numbered.mem_held_take.mp hp with hp | ⟨-, rfl⟩
      · exact h.above j p hp q hq
      · exact Nat.lt_succ_of_le (hle q hq)
  case inr.inr.inl =>
    rw [hadded]
    constructor
    · intro n hn q hq
      rcases List.mem_append.mp hq with hq | hq
      · exact h.counter n hn q hq
      · have hle := h.numbered.held_le i q hq
        have hcurrent : (sequencer l.writer).current = n := by
          unfold Sequencer.current
          rw [show (sequencer l.writer).counter = some n from hn]
          rfl
        exact hcurrent ▸ hle
    · intro j p hp q hq
      obtain ⟨hj, hp⟩ := Sequencer.Numbered.mem_held_append.mp hp
      rcases List.mem_append.mp hq with hq | hq
      · exact h.above j p hp q hq
      · apply horderly.1 q (hadded ▸ hq) j p hp
        intro hmem
        rw [hadded] at hmem
        exact h.numbered.apart j i hj p hp p hmem rfl
  case inr.inr.inr =>
    constructor
    · intro n hn
      exact absurd hn nofun
    · intro j p hp
      exact absurd hp List.not_mem_nil

theorem writerStep (h : l.Counted) (ev : LifeEvent ι G) (horderly : l.Orderly (.writer ev)) :
    (l.writerStep ev).Counted := by
  have hlogs := logs_lifeStep h.numbered ev
  have hreads : (l.writerStep ev).Reads := by
    have hreads := h.reads
    cases ev with
    | restart => trivial
    | conn isEnabled ev =>
      unfold Reads at hreads ⊢
      change match l.phase with
        | .idle => True
        | .publishing entries _ => entries ≠ [] ∧
          ∀ p ∈ entries, p ∈ l.committed ++ appended l.writer (.conn isEnabled ev)
        | .collected w numbers =>
          (∃ q ∈ l.committed ++ appended l.writer (.conn isEnabled ev), q.1 = w) ∧
            ∀ n ∈ numbers, n ≤ w
      split at hreads
      · trivial
      · exact ⟨hreads.1, fun p hp => List.mem_append_left _ (hreads.2 p hp)⟩
      · obtain ⟨⟨q, hq, hw⟩, hle⟩ := hreads
        exact ⟨⟨q, List.mem_append_left _ hq, hw⟩, hle⟩
  have hlogged : ∀ q ∈ (l.writer.lifeStep ev).log.entries,
      q ∈ l.committed ++ appended l.writer ev := by
    intro q hq
    rcases (hlogs.mem q).mp hq with hq | hq
    · exact List.mem_append_left _ (h.logged q hq)
    · exact List.mem_append_right _ hq
  have hkept : ∀ q ∈ l.committed ++ appended l.writer ev,
      q ∈ (l.writer.lifeStep ev).log.entries ∨ ∃ w ∈ l.sealed, q.1 ≤ w := by
    intro q hq
    rcases List.mem_append.mp hq with hq | hq
    · exact (h.kept q hq).imp_left fun hlog => (hlogs.mem q).mpr (Or.inl hlog)
    · exact Or.inl ((hlogs.mem q).mpr (Or.inr hq))
  have hwatermarks : ∀ w ∈ l.sealed, ∃ q ∈ l.committed ++ appended l.writer ev, q.1 = w := by
    intro w hw
    obtain ⟨q, hq, hqw⟩ := h.watermarks w hw
    exact ⟨q, List.mem_append_left _ hq, hqw⟩
  obtain ⟨hcounter, habove⟩ := h.numbers_step ev horderly
  exact ⟨hlogs.numbered, hlogged, hkept, hwatermarks, hcounter, habove, hreads⟩

theorem step (h : l.Counted) (ev : LakeEvent ι G) (horderly : l.Orderly ev) :
    (l.step ev).Counted := by
  cases ev with
  | writer ev => exact h.writerStep ev horderly
  | scan => exact h.scan
  | publish t => exact h.publish t
  | collect => exact h.collect
  | delete => exact h.delete
  | abort => exact { h with reads := trivial }

theorem run (h : l.Counted) {events : List (LakeEvent ι G)} (horderly : l.AlwaysOrderly events) :
    (l.run events).Counted := by
  induction events generalizing l with
  | nil => exact h
  | cons ev events ih => exact ih (h.step ev horderly.1) horderly.2

/-- What a step commits has higher numbers than what was committed before. -/
theorem appended_above (h : l.Counted) (ev : LifeEvent ι G) :
    ∀ p ∈ appended l.writer ev, ∀ q ∈ l.committed, q.1 < p.1 := by
  intro p hp
  rcases sequencer_lifeStep l.writer ev with ⟨-, hadded, -⟩ | ⟨i, change, -, hadded, -⟩ |
    ⟨i, -, hadded, -⟩ | ⟨-, hadded, -⟩
  case inr.inr.inl => exact h.above i p (hadded ▸ hp)
  all_goals
    rw [hadded] at hp
    exact absurd hp List.not_mem_nil

end Counted

/-- In every interleaving of commits, seals and restarts whose steps are all orderly,
each number is above those committed before it and above the watermark of every seal
that has ended. -/
theorem numbers_increase [DecidableEq ι] (live : Store G) (now : ℤ) (options : ι → ConnOptions)
    (mirror : Mirror G) (events : List (LakeEvent ι G))
    (horderly : (opened live now options mirror).AlwaysOrderly events) :
    ∀ before ev after, events = before ++ .writer ev :: after →
      ∀ p ∈ appended ((opened live now options mirror).run before).writer ev,
        (∀ q ∈ ((opened live now options mirror).run before).committed, q.1 < p.1) ∧
          ∀ w ∈ ((opened live now options mirror).run before).sealed, w < p.1 := by
  intro before ev after hevents p hp
  subst events
  have hcounted := (Counted.opened live now options mirror).run horderly.append.1
  have habove := hcounted.appended_above ev p hp
  refine ⟨habove, ?_⟩
  intro w hw
  obtain ⟨q, hq, rfl⟩ := hcounted.watermarks w hw
  exact habove q hq

end Lake

namespace Ints

open Sql.Ints (engine)

/-- Two commits side by side, a seal of the first of them, and another writer. -/
def inOrder : List (LakeEvent (Fin 2) engine) :=
  unwritten 0 Ints.createTable ++ [write 0] ++ unwritten 0 (Ints.insert [1, 10]) ++
    unwritten 1 (Ints.insert [2, 20]) ++ [write 0, .scan, .publish Ints.t, write 1, .collect,
      .delete, .writer .restart] ++ unwritten 0 (Ints.insert [3, 30])

theorem numbers_increase_inOrder :
    appended (fresh.run inOrder).writer (.conn (fun _ => true) (.write 0)) ≠ [] ∧
      ∀ p ∈ appended (fresh.run inOrder).writer (.conn (fun _ => true) (.write 0)),
        (∀ q ∈ (fresh.run inOrder).committed, q.1 < p.1) ∧
          ∀ w ∈ (fresh.run inOrder).sealed, w < p.1 :=
  ⟨by decide +kernel, Lake.numbers_increase Kv.empty 0 (fun _ => ⟨false, false, true⟩)
    (fun _ => none) (inOrder ++ [write 0]) (by decide +kernel) inOrder _ [] rfl⟩

/-- A row, a seal of it, and another writer. -/
def emptied : List (LakeEvent (Fin 2) engine) :=
  unwritten 0 Ints.createTable ++ [write 0] ++ unwritten 0 (Ints.insert [1, 10]) ++ [write 0] ++
    Lake.quietSeal [Ints.t] ++ [.writer .restart] ++ unwritten 0 (Ints.insert [2, 20])

/-- The next entry has the number one again, which a seal has already had. -/
theorem numbers_reused : ¬∀ events : List (LakeEvent (Fin 2) engine),
    ∀ before ev after, events = before ++ .writer ev :: after →
      ∀ p ∈ appended (fresh.run before).writer ev,
        (∀ q ∈ (fresh.run before).committed, q.1 < p.1) ∧
          ∀ w ∈ (fresh.run before).sealed, w < p.1 := by
  intro h
  have hlast := h _ emptied (.conn (fun _ => true) (.write 0)) [] rfl
  exact absurd hlast (by decide +kernel)

end Ints

end BlueDB.Lakehouse
