import BlueDB.Lib.Kv

/-!
# Locks by key

A client asks for the locks of several keys and takes them in ascending order.
The locks are found through a table that does not keep them alive: a lock that
no client holds or waits for is lost, and its key gets another one. Two clients
never hold the lock of one key, and no clients wait for each other in a circle.
-/

set_option linter.unusedSectionVars false

namespace BlueDB

variable {ι κ : Type*}

/-- The locks a client holds, the one it waits for and the keys it asks for next. -/
structure Client (κ : Type*) where
  held : List (κ × ℕ)
  waiting : Option (κ × ℕ)
  wanted : List κ

namespace Client

def idle : Client κ := ⟨[], none, []⟩

/-- The locks a client keeps alive. -/
def refs (c : Client κ) : List (κ × ℕ) := c.held ++ c.waiting.toList

/-- The keys of a request, in the order of their locks. -/
def keys (c : Client κ) : List κ := c.refs.map Prod.fst ++ c.wanted

/-- Nothing is left to be taken. -/
def Served (c : Client κ) : Prop := c.waiting = none ∧ c.wanted = []

instance (c : Client κ) : Decidable c.Served :=
  decidable_of_iff (c.waiting.isNone = true ∧ c.wanted.isEmpty = true) (by simp [Served])

@[simp] theorem refs_idle : (idle : Client κ).refs = [] := rfl

@[simp] theorem keys_idle : (idle : Client κ).keys = [] := rfl

theorem idle_served : (idle : Client κ).Served := ⟨rfl, rfl⟩

theorem mem_refs_of_held {c : Client κ} {r : κ × ℕ} (h : r ∈ c.held) : r ∈ c.refs :=
  List.mem_append_left _ h

theorem mem_refs_of_waiting {c : Client κ} {r : κ × ℕ} (h : c.waiting = some r) : r ∈ c.refs := by
  rw [refs, h]
  simp

theorem Served.mem_held {c : Client κ} (h : c.Served) {k : κ} (hk : k ∈ c.keys) :
    ∃ id, (k, id) ∈ c.held := by
  rw [keys, refs, h.1, h.2] at hk
  simpa using hk

theorem held_lt_waiting [LT κ] {c : Client κ} (h : c.keys.Pairwise (· < ·)) {r r' : κ × ℕ}
    (hheld : r ∈ c.held) (hwaiting : c.waiting = some r') : r.1 < r'.1 := by
  rw [keys, refs, hwaiting, List.map_append, List.append_assoc] at h
  apply (List.pairwise_append.mp h).2.2
  · exact List.mem_map_of_mem hheld
  · simp

end Client

/-- The table of the locks by key, the next new lock and the clients. -/
structure KeyedLocks (ι κ : Type*) where
  table : Kv fun _ : κ => ℕ
  next : ℕ
  client : ι → Client κ

namespace KeyedLocks

def empty : KeyedLocks ι κ := ⟨Kv.empty, 0, fun _ => Client.idle⟩

/-- A client keeps the lock alive. -/
def Referenced (l : KeyedLocks ι κ) (id : ℕ) : Prop := ∃ i, id ∈ (l.client i).refs.map Prod.snd

instance [Fintype ι] (l : KeyedLocks ι κ) (id : ℕ) : Decidable (l.Referenced id) :=
  inferInstanceAs (Decidable (∃ i, id ∈ (l.client i).refs.map Prod.snd))

/-- No client holds the lock. -/
def Free (l : KeyedLocks ι κ) (id : ℕ) : Prop := ∀ i, id ∉ (l.client i).held.map Prod.snd

instance [Fintype ι] (l : KeyedLocks ι κ) (id : ℕ) : Decidable (l.Free id) :=
  inferInstanceAs (Decidable (∀ i, id ∉ (l.client i).held.map Prod.snd))

variable [DecidableEq ι] [LinearOrder κ]

def setClient (l : KeyedLocks ι κ) (i : ι) (c : Client κ) : KeyedLocks ι κ :=
  { l with client := Function.update l.client i c }

def lockOrder (keys : List κ) : List κ := (keys.mergeSort fun a b => decide (a ≤ b)).dedup

/-- An idle client asks for the locks of `keys`. -/
def request (l : KeyedLocks ι κ) (i : ι) (keys : List κ) : KeyedLocks ι κ :=
  match l.client i with
  | ⟨[], none, []⟩ => l.setClient i ⟨[], none, lockOrder keys⟩
  | _ => l

/-- The locks a client holds are released, and it asks for no more. -/
def release (l : KeyedLocks ι κ) (i : ι) : KeyedLocks ι κ := l.setClient i Client.idle

/-- A client that waits for a lock takes it when no client holds it. -/
def grant [Fintype ι] (l : KeyedLocks ι κ) (i : ι) : KeyedLocks ι κ :=
  match l.client i with
  | ⟨held, some r, wanted⟩ =>
    if l.Free r.2 then l.setClient i ⟨held ++ [r], none, wanted⟩ else l
  | _ => l

/-- A table of more than `limit` keys loses those whose locks are lost. -/
def prune [Fintype ι] (l : KeyedLocks ι κ) (limit : ℕ) : Kv fun _ : κ => ℕ :=
  if limit < (l.table.scan fun _ => true).length then
    l.table.commit ((l.table.scan fun k =>
      (l.table.get k).all fun id => !decide (l.Referenced id)).map Write.delete)
  else l.table

def lookup [Fintype ι] (l : KeyedLocks ι κ) (limit : ℕ) (i : ι) : KeyedLocks ι κ :=
  match l.client i with
  | ⟨held, none, k :: wanted⟩ =>
    match ((l.prune limit).get k).filter fun id => decide (l.Referenced id) with
    | some id => { l.setClient i ⟨held, some (k, id), wanted⟩ with table := l.prune limit }
    | none =>
      { l.setClient i ⟨held, some (k, l.next), wanted⟩ with
        table := (l.prune limit).write (.put k l.next)
        next := l.next + 1 }
  | _ => l

/-- What the operations keep: the table knows the locks that are kept alive, and
each of them is held once. -/
structure Ok (l : KeyedLocks ι κ) : Prop where
  entry : ∀ i k id, (k, id) ∈ (l.client i).refs → l.table.get k = some id
  bound : ∀ k id, l.table.get k = some id → id < l.next
  inj : ∀ k k' id, l.table.get k = some id → l.table.get k' = some id → k = k'
  exclusive : ∀ i j r, r ∈ (l.client i).held → r ∈ (l.client j).held → i = j
  ascending : ∀ i, (l.client i).keys.Pairwise (· < ·)

theorem ok_empty : (empty : KeyedLocks ι κ).Ok where
  entry _ _ _ h := absurd h List.not_mem_nil
  bound _ _ h := absurd h (by simp [empty])
  inj _ _ _ h := absurd h (by simp [empty])
  exclusive _ _ _ h := absurd h List.not_mem_nil
  ascending _ := List.Pairwise.nil

theorem lockOrder_ascending (keys : List κ) : (lockOrder keys).Pairwise (· < ·) := by
  have hsorted : (lockOrder keys).Pairwise (· ≤ ·) :=
    List.Pairwise.sublist (List.dedup_sublist _) List.sortedLE_mergeSort.pairwise
  apply (hsorted.and (List.nodup_dedup _)).imp
  intro a b h
  exact lt_of_le_of_ne h.1 h.2

theorem mem_lockOrder {keys : List κ} {k : κ} : k ∈ lockOrder keys ↔ k ∈ keys := by
  rw [lockOrder, List.mem_dedup, List.mem_mergeSort]

@[simp] theorem setClient_self (l : KeyedLocks ι κ) (i : ι) (c : Client κ) :
    (l.setClient i c).client i = c := Function.update_self ..

theorem setClient_of_ne (l : KeyedLocks ι κ) {i j : ι} (c : Client κ) (h : j ≠ i) :
    (l.setClient i c).client j = l.client j := Function.update_of_ne h ..

namespace Ok

variable {l : KeyedLocks ι κ}

/-- A client that keeps none but its own locks alive, and holds no other. -/
theorem setClient (h : l.Ok) {i : ι} {c : Client κ} (hrefs : ∀ r ∈ c.refs, r ∈ (l.client i).refs)
    (hheld : ∀ r ∈ c.held, r ∈ (l.client i).held ∨ ∀ j, r ∉ (l.client j).held)
    (hkeys : c.keys.Pairwise (· < ·)) : (l.setClient i c).Ok := by
  constructor
  · intro j k id hr
    by_cases hj : j = i
    · subst j
      rw [setClient_self] at hr
      exact h.entry i k id (hrefs _ hr)
    · rw [setClient_of_ne _ _ hj] at hr
      exact h.entry j k id hr
  · exact h.bound
  · exact h.inj
  · intro j j' r hr hr'
    by_cases hj : j = i
    · by_cases hj' : j' = i
      · exact hj.trans hj'.symm
      · subst j
        rw [setClient_self] at hr
        rw [setClient_of_ne _ _ hj'] at hr'
        rcases hheld r hr with hown | hfree
        · exact h.exclusive i j' r hown hr'
        · exact absurd hr' (hfree j')
    · rw [setClient_of_ne _ _ hj] at hr
      by_cases hj' : j' = i
      · subst j'
        rw [setClient_self] at hr'
        rcases hheld r hr' with hown | hfree
        · exact h.exclusive j i r hr hown
        · exact absurd hr (hfree j)
      · rw [setClient_of_ne _ _ hj'] at hr'
        exact h.exclusive j j' r hr hr'
  · intro j
    by_cases hj : j = i
    · subst j
      rw [setClient_self]
      exact hkeys
    · rw [setClient_of_ne _ _ hj]
      exact h.ascending j

theorem request (h : l.Ok) (i : ι) (keys : List κ) : (l.request i keys).Ok := by
  unfold KeyedLocks.request
  split
  · apply h.setClient
    · intro r hr
      exact absurd hr List.not_mem_nil
    · intro r hr
      exact absurd hr List.not_mem_nil
    · exact lockOrder_ascending keys
  · exact h

theorem release (h : l.Ok) (i : ι) : (l.release i).Ok := by
  apply h.setClient
  · intro r hr
    exact absurd hr List.not_mem_nil
  · intro r hr
    exact absurd hr List.not_mem_nil
  · exact List.Pairwise.nil

theorem grant [Fintype ι] (h : l.Ok) (i : ι) : (l.grant i).Ok := by
  unfold KeyedLocks.grant
  split
  · next held r wanted hclient =>
    split_ifs with hfree
    · apply h.setClient
      · intro r' hr'
        rw [hclient]
        simpa [Client.refs] using hr'
      · intro r' hr'
        rw [hclient]
        rcases List.mem_append.mp hr' with hheld | hlast
        · exact Or.inl hheld
        · obtain rfl := List.mem_singleton.mp hlast
          exact Or.inr fun j hj => hfree j (List.mem_map_of_mem hj)
      · have hkeys := h.ascending i
        rw [hclient] at hkeys
        simpa [Client.keys, Client.refs] using hkeys
    · exact h
  · exact h

end Ok

theorem get_prune [Fintype ι] (l : KeyedLocks ι κ) (limit : ℕ) (k : κ) :
    (l.prune limit).get k = l.table.get k ∨
      (l.prune limit).get k = none ∧ ∀ id, l.table.get k = some id → ¬l.Referenced id := by
  unfold prune
  split_ifs with hlimit
  · rw [Kv.get_commit_deletes]
    split_ifs with hdead
    · refine Or.inr ⟨rfl, ?_⟩
      intro id hid href
      have hall := (Kv.mem_scan.mp hdead).1
      rw [hid] at hall
      simp [href] at hall
    · exact Or.inl rfl
  · exact Or.inl rfl

/-- A lookup: client `i` waits for the lock `id` of `k`. -/
structure Looks (l l' : KeyedLocks ι κ) (i : ι) (held : List (κ × ℕ)) (k : κ) (wanted : List κ)
    (id : ℕ) : Prop where
  before : l.client i = ⟨held, none, k :: wanted⟩
  client : l'.client = Function.update l.client i ⟨held, some (k, id), wanted⟩
  entry : l'.table.get k = some id
  other : ∀ k', k' ≠ k → l'.table.get k' = l.table.get k' ∨
    l'.table.get k' = none ∧ ∀ id', l.table.get k' = some id' → ¬l.Referenced id'
  lock : l'.next = l.next ∧ l.table.get k = some id ∨
    l'.next = l.next + 1 ∧ id = l.next ∧ ∀ id', l.table.get k = some id' → ¬l.Referenced id'

theorem lookup_cases [Fintype ι] (l : KeyedLocks ι κ) (limit : ℕ) (i : ι) :
    l.lookup limit i = l ∨
      ∃ held k wanted id, Looks l (l.lookup limit i) i held k wanted id := by
  unfold lookup
  split
  · next held k wanted hclient =>
    right
    have hprune := l.get_prune limit
    split
    · next id hfilter =>
      obtain ⟨hget, href⟩ := Option.filter_eq_some_iff.mp hfilter
      refine ⟨held, k, wanted, id, hclient, rfl, hget, fun k' _ => hprune k', Or.inl ⟨rfl, ?_⟩⟩
      rcases hprune k with hsame | ⟨hnone, _⟩
      · exact hsame.symm.trans hget
      · rw [hnone] at hget
        cases hget
    · next hfilter =>
      refine ⟨held, k, wanted, l.next, hclient, rfl, Kv.get_write_put .., ?_, Or.inr ⟨rfl, rfl, ?_⟩⟩
      · intro k' hk'
        have hother : ((l.prune limit).write (.put k l.next)).get k' = (l.prune limit).get k' :=
          Kv.get_write_of_ne hk'
        dsimp only
        rw [hother]
        exact hprune k'
      · intro id hid href
        rcases hprune k with hsame | ⟨_, hlost⟩
        · rw [hsame, hid] at hfilter
          simp [href] at hfilter
        · exact hlost id hid href
  · exact Or.inl rfl

namespace Looks

variable {l l' : KeyedLocks ι κ} {i : ι} {held : List (κ × ℕ)} {k : κ} {wanted : List κ} {id : ℕ}

theorem client_self (h : Looks l l' i held k wanted id) :
    l'.client i = ⟨held, some (k, id), wanted⟩ := by
  rw [h.client]
  exact Function.update_self ..

theorem client_of_ne (h : Looks l l' i held k wanted id) {j : ι} (hj : j ≠ i) :
    l'.client j = l.client j := by
  rw [h.client]
  exact Function.update_of_ne hj ..

theorem held_eq (h : Looks l l' i held k wanted id) (j : ι) :
    (l'.client j).held = (l.client j).held := by
  by_cases hj : j = i
  · subst j
    rw [h.client_self, h.before]
  · rw [h.client_of_ne hj]

theorem keys_eq (h : Looks l l' i held k wanted id) (j : ι) :
    (l'.client j).keys = (l.client j).keys := by
  by_cases hj : j = i
  · subst j
    rw [h.client_self, h.before]
    simp [Client.keys, Client.refs]
  · rw [h.client_of_ne hj]

theorem get_of_referenced (h : Looks l l' i held k wanted id) {k' : κ} {id' : ℕ}
    (hget : l.table.get k' = some id') (href : l.Referenced id') :
    l'.table.get k' = some id' := by
  by_cases hk : k' = k
  · subst k'
    rcases h.lock with ⟨_, hid⟩ | ⟨_, _, hlost⟩
    · rw [h.entry, ← hid, hget]
    · exact absurd href (hlost id' hget)
  · rcases h.other k' hk with hsame | ⟨_, hlost⟩
    · exact hsame.trans hget
    · exact absurd href (hlost id' hget)

theorem get_old (h : Looks l l' i held k wanted id) {k' : κ} (hk : k' ≠ k) {id' : ℕ}
    (hget : l'.table.get k' = some id') : l.table.get k' = some id' := by
  rcases h.other k' hk with hsame | ⟨hnone, _⟩
  · exact hsame.symm.trans hget
  · rw [hnone] at hget
    cases hget

theorem ne_of_get (h : Looks l l' i held k wanted id) (hok : l.Ok) {k' : κ} (hk : k' ≠ k) :
    l'.table.get k' ≠ some id := by
  intro hget
  have hold := h.get_old hk hget
  rcases h.lock with ⟨_, hid⟩ | ⟨_, hid, _⟩
  · exact hk (hok.inj k' k id hold hid)
  · exact absurd (hok.bound k' id hold) (by omega)

theorem ok (h : Looks l l' i held k wanted id) (hok : l.Ok) : l'.Ok := by
  constructor
  · intro j k' id' hr
    by_cases hj : j = i
    · subst j
      rw [h.client_self] at hr
      rcases List.mem_append.mp hr with hheld | hlast
      · have hmem : (k', id') ∈ (l.client i).refs := by
          rw [h.before]
          exact Client.mem_refs_of_held hheld
        exact h.get_of_referenced (hok.entry i k' id' hmem) ⟨i, List.mem_map_of_mem hmem⟩
      · obtain ⟨rfl, rfl⟩ := Prod.mk.inj (List.mem_singleton.mp hlast)
        exact h.entry
    · rw [h.client_of_ne hj] at hr
      exact h.get_of_referenced (hok.entry j k' id' hr) ⟨j, List.mem_map_of_mem hr⟩
  · intro k' id' hget
    have hnext : l.next ≤ l'.next := by
      rcases h.lock with ⟨hnext, _⟩ | ⟨hnext, _⟩ <;> omega
    by_cases hk : k' = k
    · subst k'
      obtain rfl : id = id' := Option.some.inj (h.entry.symm.trans hget)
      rcases h.lock with ⟨_, hid⟩ | ⟨hnext', hid, _⟩
      · exact (hok.bound k id hid).trans_le hnext
      · omega
    · exact (hok.bound k' id' (h.get_old hk hget)).trans_le hnext
  · intro k1 k2 id' h1 h2
    by_cases hk1 : k1 = k
    · subst k1
      obtain rfl : id = id' := Option.some.inj (h.entry.symm.trans h1)
      by_contra hne
      exact h.ne_of_get hok (Ne.symm hne) h2
    · by_cases hk2 : k2 = k
      · subst k2
        obtain rfl : id = id' := Option.some.inj (h.entry.symm.trans h2)
        exact absurd h1 (h.ne_of_get hok hk1)
      · exact hok.inj k1 k2 id' (h.get_old hk1 h1) (h.get_old hk2 h2)
  · intro j j' r hr hr'
    rw [h.held_eq] at hr hr'
    exact hok.exclusive j j' r hr hr'
  · intro j
    rw [h.keys_eq]
    exact hok.ascending j

end Looks

theorem Ok.lookup [Fintype ι] {l : KeyedLocks ι κ} (h : l.Ok) (limit : ℕ) (i : ι) :
    (l.lookup limit i).Ok := by
  rcases l.lookup_cases limit i with hsame | ⟨held, k, wanted, id, hlooks⟩
  · rw [hsame]
    exact h
  · exact hlooks.ok h

theorem keys_lookup [Fintype ι] (l : KeyedLocks ι κ) (limit : ℕ) (i j : ι) :
    ((l.lookup limit i).client j).keys = (l.client j).keys := by
  rcases l.lookup_cases limit i with hsame | ⟨held, k, wanted, id, hlooks⟩
  · rw [hsame]
  · exact hlooks.keys_eq j

theorem lookup_of_ne [Fintype ι] (l : KeyedLocks ι κ) (limit : ℕ) {i j : ι} (h : j ≠ i) :
    (l.lookup limit i).client j = l.client j := by
  rcases l.lookup_cases limit i with hsame | ⟨held, k, wanted, id, hlooks⟩
  · rw [hsame]
  · exact hlooks.client_of_ne h

theorem keys_grant [Fintype ι] (l : KeyedLocks ι κ) (i j : ι) :
    ((l.grant i).client j).keys = (l.client j).keys := by
  unfold grant
  split
  · next held r wanted hclient =>
    split_ifs with hfree
    · by_cases hj : j = i
      · subst j
        rw [setClient_self, hclient]
        simp [Client.keys, Client.refs]
      · rw [setClient_of_ne _ _ hj]
    · rfl
  · rfl

theorem grant_of_ne [Fintype ι] (l : KeyedLocks ι κ) {i j : ι} (h : j ≠ i) :
    (l.grant i).client j = l.client j := by
  unfold grant
  split
  · split_ifs with hfree
    · exact setClient_of_ne _ _ h
    · rfl
  · rfl

theorem request_of_ne (l : KeyedLocks ι κ) {i j : ι} (keys : List κ) (h : j ≠ i) :
    (l.request i keys).client j = l.client j := by
  unfold request
  split
  · exact setClient_of_ne _ _ h
  · rfl

theorem request_self (l : KeyedLocks ι κ) {i : ι} (keys : List κ) (h : l.client i = Client.idle) :
    (l.request i keys).client i = ⟨[], none, lockOrder keys⟩ := by
  unfold request
  rw [h]
  exact setClient_self ..

theorem release_of_ne (l : KeyedLocks ι κ) {i j : ι} (h : j ≠ i) :
    (l.release i).client j = l.client j := setClient_of_ne _ _ h

@[simp] theorem release_self (l : KeyedLocks ι κ) (i : ι) : (l.release i).client i = Client.idle :=
  setClient_self ..

theorem waiting_grant [Fintype ι] (l : KeyedLocks ι κ) {i : ι} {r : κ × ℕ}
    (hwaiting : (l.client i).waiting = some r) (hfree : l.Free r.2) :
    ((l.grant i).client i).waiting = none := by
  unfold grant
  cases hclient : l.client i with
  | mk held waiting wanted =>
    rw [hclient] at hwaiting
    obtain rfl : waiting = some r := hwaiting
    dsimp only
    rw [if_pos hfree, setClient_self]

theorem waiting_lookup [Fintype ι] (l : KeyedLocks ι κ) (limit : ℕ) {i : ι}
    (hwaiting : (l.client i).waiting = none) (hwanted : (l.client i).wanted ≠ []) :
    ((l.lookup limit i).client i).waiting ≠ none := by
  unfold lookup
  cases hclient : l.client i with
  | mk held waiting wanted =>
    rw [hclient] at hwaiting hwanted
    obtain rfl : waiting = none := hwaiting
    cases wanted with
    | nil => exact absurd rfl hwanted
    | cons k wanted =>
      dsimp only
      split
      · simp [setClient]
      · simp [setClient]

theorem Ok.unique {l : KeyedLocks ι κ} (h : l.Ok) {i j : ι} {k : κ} {id id' : ℕ}
    (hi : (k, id) ∈ (l.client i).held) (hj : (k, id') ∈ (l.client j).held) : i = j := by
  have hid := h.entry i k id (Client.mem_refs_of_held hi)
  have hid' := h.entry j k id' (Client.mem_refs_of_held hj)
  obtain rfl : id = id' := Option.some.inj (hid.symm.trans hid')
  exact h.exclusive i j (k, id) hi hj

/-- Client `i` waits for a lock that client `j` holds. -/
def WaitsFor (l : KeyedLocks ι κ) (i j : ι) : Prop :=
  ∃ r, (l.client i).waiting = some r ∧ r.2 ∈ (l.client j).held.map Prod.snd

namespace Ok

variable {l : KeyedLocks ι κ} {i j : ι}

theorem waitsFor_lt (h : l.Ok) (hwaits : l.WaitsFor i j) {r' : κ × ℕ}
    (hr' : (l.client j).waiting = some r') :
    ∃ r, (l.client i).waiting = some r ∧ r.1 < r'.1 := by
  obtain ⟨r, hr, hmem⟩ := hwaits
  obtain ⟨⟨k, id⟩, hheld, hid⟩ := List.mem_map.mp hmem
  have hkey : k = r.1 := by
    apply h.inj k r.1 r.2
    · exact hid ▸ h.entry j k id (Client.mem_refs_of_held hheld)
    · exact h.entry i r.1 r.2 (Client.mem_refs_of_waiting hr)
  refine ⟨r, hr, ?_⟩
  rw [← hkey]
  exact Client.held_lt_waiting (h.ascending j) hheld hr'

theorem transGen_lt (h : l.Ok) (hwaits : Relation.TransGen l.WaitsFor i j) {r' : κ × ℕ}
    (hr' : (l.client j).waiting = some r') :
    ∃ r, (l.client i).waiting = some r ∧ r.1 < r'.1 := by
  induction hwaits generalizing r' with
  | single hwaits => exact h.waitsFor_lt hwaits hr'
  | tail _ hlast ih =>
    obtain ⟨r, hr, hlt⟩ := h.waitsFor_lt hlast hr'
    obtain ⟨r0, hr0, hlt0⟩ := ih hr
    exact ⟨r0, hr0, hlt0.trans hlt⟩

theorem acyclic (h : l.Ok) (i : ι) : ¬Relation.TransGen l.WaitsFor i i := by
  intro hcircle
  obtain ⟨r, hr⟩ : ∃ r, (l.client i).waiting = some r := by
    obtain ⟨j, ⟨r, hr, _⟩, _⟩ := Relation.TransGen.head'_iff.mp hcircle
    exact ⟨r, hr⟩
  obtain ⟨r', hr', hlt⟩ := h.transGen_lt hcircle hr
  obtain rfl : r = r' := Option.some.inj (hr.symm.trans hr')
  exact lt_irrefl _ hlt

/-- Among the clients behind one that waits there is one that waits for nobody. -/
theorem exists_unblocked [Finite ι] (h : l.Ok) (i : ι) :
    ∃ j, Relation.ReflTransGen l.WaitsFor i j ∧ ∀ j', ¬l.WaitsFor j j' := by
  have hirrefl : Std.Irrefl (Function.swap (Relation.TransGen l.WaitsFor)) := ⟨h.acyclic⟩
  have hwf := Finite.wellFounded_of_trans_of_irrefl (Function.swap (Relation.TransGen l.WaitsFor))
  induction i using hwf.induction with
  | h i ih =>
    by_cases hblocked : ∃ j, l.WaitsFor i j
    · obtain ⟨j, hj⟩ := hblocked
      obtain ⟨j', hreach, hfree⟩ := ih j (Relation.TransGen.single hj)
      exact ⟨j', Relation.ReflTransGen.head hj hreach, hfree⟩
    · exact ⟨i, Relation.ReflTransGen.refl, fun j hj => hblocked ⟨j, hj⟩⟩

end Ok

end KeyedLocks
end BlueDB
