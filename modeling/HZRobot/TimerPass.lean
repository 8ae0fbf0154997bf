import HZRobot.TimerManager
import Mathlib.Algebra.Order.BigOperators.Group.List
import Mathlib.Algebra.Order.Ring.Nat
import Mathlib.Algebra.Ring.Action.Basic

/-!
One pass of do_timer while the clock stands still and the callbacks leave the manager
alone. A timer that fires goes back behind the clock or, when it is not relative and
late, once more to the clock itself.
-/

namespace HZRobot.TimerManager

section Tables

/-- The multimap as set_timer and do_timer fill it. -/
structure Table (entries : List (Nat × Timer)) : Prop where
  sorted : entries.Pairwise fun e e' => e.1 ≤ e'.1
  key : ∀ e ∈ entries, e.1 = e.2.timestamp
  distinct : (ids entries).Nodup
  delay : ∀ e ∈ entries, 0 < e.2.delay

theorem insert_sorted {key : Nat} {item : Timer} {entries : List (Nat × Timer)}
    (h : entries.Pairwise fun e e' => e.1 ≤ e'.1) :
    (insert key item entries).Pairwise fun e e' => e.1 ≤ e'.1 := by
  induction entries with
  | nil => exact List.pairwise_singleton _ _
  | cons d entries ih =>
      obtain ⟨first, later⟩ := List.pairwise_cons.mp h
      rw [insert]
      split
      · case isTrue less =>
          refine List.pairwise_cons.mpr ⟨fun e he => ?_, h⟩
          rcases List.mem_cons.mp he with rfl | old
          · exact Nat.le_of_lt less
          · exact Nat.le_trans (Nat.le_of_lt less) (first e old)
      · case isFalse le =>
          refine List.pairwise_cons.mpr ⟨fun e he => ?_, ih later⟩
          rcases mem_insert.mp he with rfl | old
          · exact Nat.le_of_not_lt le
          · exact first e old

theorem Table.tail {e : Nat × Timer} {es : List (Nat × Timer)} (h : Table (e :: es)) :
    Table es ∧ e.2.id ∉ ids es := by
  have distinct := h.distinct
  rw [ids, List.map_cons, List.nodup_cons] at distinct
  exact ⟨⟨(List.pairwise_cons.mp h.sorted).2, fun d hd => h.key d (List.mem_cons_of_mem e hd),
    distinct.2, fun d hd => h.delay d (List.mem_cons_of_mem e hd)⟩, distinct.1⟩

theorem Table.sublist {es entries : List (Nat × Timer)} (h : Table entries)
    (sub : es.Sublist entries) : Table es :=
  ⟨h.sorted.sublist sub, fun e he => h.key e (sub.subset he), h.distinct.sublist (sub.map _),
    fun e he => h.delay e (sub.subset he)⟩

theorem Table.insert {item : Timer} {entries : List (Nat × Timer)} (h : Table entries)
    (fresh : item.id ∉ ids entries) (delay : 0 < item.delay) :
    Table (insert item.timestamp item entries) := by
  refine ⟨insert_sorted h.sorted, fun e he => ?_, ?_, fun e he => ?_⟩
  · rcases mem_insert.mp he with rfl | old
    · rfl
    · exact h.key e old
  · refine ((insert_perm _ _ entries).map _).nodup_iff.mpr ?_
    rw [List.map_cons, List.nodup_cons]
    exact ⟨fresh, h.distinct⟩
  · rcases mem_insert.mp he with rfl | old
    · exact delay
    · exact h.delay e old

/-- The order and the delays hold in every reachable state, the rest is `Identified`. -/
structure Kept (s : System) : Prop where
  sorted : s.entries.Pairwise fun e e' => e.1 ≤ e'.1
  delay : ∀ e ∈ s.entries, 0 < e.2.delay
  running : ∀ item ∈ s.pc.item, 0 < item.delay

theorem Kept.of_sublist {s t : System} (h : Kept s) (entries : t.entries.Sublist s.entries)
    (pc : ∀ item ∈ t.pc.item, item ∈ s.pc.item) : Kept t :=
  ⟨h.sorted.sublist entries, fun e he => h.delay e (entries.subset he),
    fun item running => h.running item (pc item running)⟩

theorem Kept.insert {s t : System} {item : Timer} (h : Kept s) (delay : 0 < item.delay)
    (entries : t.entries = insert item.timestamp item s.entries)
    (pc : ∀ item ∈ t.pc.item, item ∈ s.pc.item) : Kept t := by
  refine ⟨entries ▸ insert_sorted h.sorted, fun e he => ?_,
    fun item running => h.running item (pc item running)⟩
  rw [entries] at he
  rcases mem_insert.mp he with rfl | old
  · exact delay
  · exact h.delay e old

theorem kept_step {s t : System} {a : Action} (h : Kept s) (taken : step s a = some t) :
    Kept t := by
  cases a with
  | setTimer now delay relative =>
      obtain ⟨-, rfl⟩ := user_cases taken
      unfold setTimer
      split
      · exact h
      · case isFalse positive =>
          exact h.insert (Nat.pos_of_ne_zero positive) rfl fun _ running => running
  | cancelTimer id =>
      obtain ⟨-, rfl⟩ := user_cases taken
      exact h.of_sublist (cancelEntries_sublist id s.entries) fun _ running => running
  | clearAll =>
      obtain ⟨-, rfl⟩ := user_cases taken
      exact h.of_sublist (List.nil_sublist _) fun _ running => running
  | doTimer now =>
      obtain ⟨-, rfl | rfl⟩ := doTimer_cases taken
      · exact h.of_sublist (List.Sublist.refl _) fun _ running => running
      · exact h.of_sublist (List.Sublist.refl _) nofun
  | loop =>
      obtain ⟨now, -, ⟨-, rfl⟩ | ⟨key, item, es, entries, -, rfl⟩ | ⟨-, -, -, -, -, rfl⟩⟩ :=
        loop_cases taken
      · exact h.of_sublist (List.Sublist.refl _) nofun
      · have sorted := h.sorted
        have delay := h.delay
        rw [entries] at sorted delay
        refine ⟨(List.pairwise_cons.mp sorted).2,
          fun e he => delay e (List.mem_cons_of_mem _ he), fun i running => ?_⟩
        cases running
        exact delay _ List.mem_cons_self
      · exact h.of_sublist (List.Sublist.refl _) nofun
  | finish again now =>
      obtain ⟨item, before, pc, ⟨-, rfl⟩ | ⟨-, rfl⟩⟩ := finish_cases taken
      · have delay : 0 < item.delay := h.running item (by rw [pc]; rfl)
        exact Kept.insert h (show 0 < (item.again now).delay from delay) rfl nofun
      · exact h.of_sublist (List.Sublist.refl _) nofun

/-- Between two calls every reachable manager holds a table. -/
theorem table_reachable {schedule : List Action} {s : System}
    (few : setCalls schedule < 2 ^ 64 - 1) (run : runs step init schedule = some s) :
    Table s.entries := by
  have identified : Identified s := identified_runs identified_init (by simpa [init] using few) run
  have kept : Kept s := by
    refine runs_invariant (fun s a t h taken => kept_step h taken) run
      ⟨List.Pairwise.nil, ?_, ?_⟩
    · intro e he
      cases he
    · intro item running
      cases running
  exact ⟨kept.sorted, identified.key, identified.distinct, kept.delay⟩

end Tables

section Drains

/-- The sums of a pass at `t` stay below 2^64: one for a relative timer, a second one for
another timer that is still not behind the clock after the first. -/
def Timer.Fits (t : Nat) (item : Timer) : Prop :=
  item.timestamp ≤ t →
    if item.relative then t + item.delay < 2 ^ 64
    else item.timestamp + item.delay < 2 ^ 64 ∧
      (item.timestamp + item.delay ≤ t → t + item.delay < 2 ^ 64)

instance (t : Nat) (item : Timer) : Decidable (item.Fits t) := by
  unfold Timer.Fits
  infer_instance

structure Population (t : Nat) (entries : List (Nat × Timer)) : Prop extends Table entries where
  fits : ∀ e ∈ entries, e.2.Fits t

/-- How often a timer can fire in a pass at `t`. -/
def Timer.firings (t : Nat) (item : Timer) : Nat :=
  if t < item.timestamp then 0
  else if item.relative ∨ t < item.timestamp + item.delay then 1
  else 2

theorem Timer.firings_le (t : Nat) (item : Timer) : item.firings t ≤ 2 := by
  unfold Timer.firings
  split
  · exact Nat.zero_le _
  split
  · decide
  · decide

theorem Timer.firings_relative {t : Nat} {item : Timer} (h : item.relative = true) :
    item.firings t ≤ 1 := by
  unfold Timer.firings
  split
  · exact Nat.zero_le _
  · rw [if_pos (.inl h)]

theorem Timer.firings_early {t : Nat} {item : Timer} (h : t < item.timestamp) :
    item.firings t = 0 := if_pos h

theorem Timer.again_timestamp {t : Nat} {item : Timer} (due : item.timestamp ≤ t)
    (fits : item.Fits t) :
    (item.again t).timestamp =
      if item.relative then t + item.delay else max (item.timestamp + item.delay) t := by
  have sums := fits due
  unfold Timer.again add64
  by_cases relative : item.relative = true
  · rw [if_pos relative] at sums
    simp only [if_pos relative]
    exact Nat.mod_eq_of_lt sums
  · rw [if_neg relative] at sums
    simp only [if_neg relative]
    rw [Nat.mod_eq_of_lt sums.1]

/-- A timer that fires uses up one of its firings and comes back at the clock or later. -/
theorem Timer.again_spec {t : Nat} {item : Timer} (due : item.timestamp ≤ t)
    (positive : 0 < item.delay) (fits : item.Fits t) :
    t ≤ (item.again t).timestamp ∧ (item.again t).Fits t ∧
      (item.again t).firings t + 1 = item.firings t := by
  have stamp := again_timestamp due fits
  have sums := fits due
  have delay : (item.again t).delay = item.delay := rfl
  have kind : (item.again t).relative = item.relative := rfl
  unfold Timer.firings Timer.Fits
  rw [stamp, delay, kind]
  by_cases relative : item.relative = true
  · rw [if_pos relative] at sums
    simp only [relative]
    refine ⟨?_, ?_, ?_⟩
    · simp
    · simp only [if_true]
      omega
    · simp only [if_true, true_or]
      rw [if_pos (by omega), if_neg (by omega)]
  · rw [if_neg relative] at sums
    simp only [relative]
    refine ⟨?_, ?_, ?_⟩
    · exact Nat.le_max_right _ t
    · simp only [Bool.false_eq_true, if_false]
      omega
    · simp only [Bool.false_eq_true, if_false, false_or]
      rw [if_neg (show ¬ t < item.timestamp by omega)]
      by_cases ahead : t < item.timestamp + item.delay
      · rw [if_pos (by omega), if_pos ahead]
      · rw [if_neg (by omega), if_pos (by omega), if_neg ahead]

/-- The callbacks that run while the loop at clock `t` turns the first entries into the
last, each with its answer. -/
inductive Drains (t : Nat) :
    List (Nat × Timer) → List (Timer × Bool) → List (Nat × Timer) → Prop
  | stop (entries : List (Nat × Timer)) : Drains t entries [] entries
  | drop {key : Nat} {item : Timer} {es fired rest} (due : key ≤ t)
      (later : Drains t es fired rest) : Drains t ((key, item) :: es) ((item, false) :: fired) rest
  | again {key : Nat} {item : Timer} {es fired rest} (due : key ≤ t)
      (later : Drains t (insert (item.again t).timestamp (item.again t) es) fired rest) :
      Drains t ((key, item) :: es) ((item, true) :: fired) rest

/-- The firings of the timer with an id. -/
def firingsOf (id : Nat) (fired : List (Timer × Bool)) : List (Timer × Bool) :=
  fired.filter fun f => f.1.id = id

variable {t : Nat} {entries rest es : List (Nat × Timer)} {fired : List (Timer × Bool)}
  {key : Nat} {item : Timer}

theorem Population.drop (h : Population t ((key, item) :: es)) :
    Population t es ∧ item.id ∉ ids es := by
  obtain ⟨table, fresh⟩ := h.toTable.tail
  exact ⟨⟨table, fun e he => h.fits e (List.mem_cons_of_mem _ he)⟩, fresh⟩

theorem Population.head (h : Population t ((key, item) :: es)) (due : key ≤ t) :
    item.timestamp ≤ t ∧ key = item.timestamp ∧ 0 < item.delay ∧ item.Fits t := by
  have here : key = item.timestamp := h.key _ List.mem_cons_self
  exact ⟨here ▸ due, here, h.delay _ List.mem_cons_self, h.fits _ List.mem_cons_self⟩

theorem Population.again (h : Population t ((key, item) :: es)) (due : key ≤ t) :
    Population t (insert (item.again t).timestamp (item.again t) es) := by
  obtain ⟨tail, fresh⟩ := h.drop
  obtain ⟨stamp, -, positive, fits⟩ := h.head due
  refine ⟨tail.toTable.insert fresh positive, fun e he => ?_⟩
  rcases mem_insert.mp he with rfl | old
  · exact (Timer.again_spec stamp positive fits).2.1
  · exact tail.fits e old

theorem ids_insert {id : Nat} :
    id ∈ ids (insert key item entries) ↔ id = item.id ∨ id ∈ ids entries := by
  rw [ids, ((insert_perm key item entries).map _).mem_iff, List.map_cons, List.mem_cons]
  rfl

theorem Drains.population (h : Drains t entries fired rest) (population : Population t entries) :
    Population t rest := by
  induction h with
  | stop entries => exact population
  | drop due later ih => exact ih population.drop.1
  | again due later ih => exact ih (population.again due)

theorem Drains.ids_subset (h : Drains t entries fired rest) : ids rest ⊆ ids entries := by
  induction h with
  | stop entries => exact fun _ inside => inside
  | drop due later ih => exact fun id inside => List.mem_cons_of_mem _ (ih inside)
  | again due later ih =>
      intro id inside
      rcases ids_insert.mp (ih inside) with rfl | old
      · exact List.mem_cons_self
      · exact List.mem_cons_of_mem _ old

theorem firingsOf_cons_self {id : Nat} {b : Bool} (same : item.id = id) :
    firingsOf id ((item, b) :: fired) = (item, b) :: firingsOf id fired :=
  List.filter_cons_of_pos (by simpa using same)

theorem firingsOf_cons_ne {id : Nat} {b : Bool} (other : item.id ≠ id) :
    firingsOf id ((item, b) :: fired) = firingsOf id fired :=
  List.filter_cons_of_neg (by simpa using other)

/-- A timer that is not in the table does not fire. -/
theorem Drains.foreign (h : Drains t entries fired rest) {id : Nat} (out : id ∉ ids entries) :
    firingsOf id fired = [] := by
  induction h with
  | stop entries => rfl
  | drop due later ih =>
      obtain ⟨other, tail⟩ := List.ne_and_not_mem_of_not_mem_cons out
      rw [firingsOf_cons_ne other.symm]
      exact ih tail
  | again due later ih =>
      obtain ⟨other, tail⟩ := List.ne_and_not_mem_of_not_mem_cons out
      rw [firingsOf_cons_ne other.symm]
      exact ih fun inside => (ids_insert.mp inside).elim other tail

theorem Drains.firings_le (h : Drains t entries fired rest) (population : Population t entries)
    {e : Nat × Timer} (he : e ∈ entries) :
    (firingsOf e.2.id fired).length ≤ e.2.firings t := by
  induction h generalizing e with
  | stop entries => exact Nat.zero_le _
  | @drop key item es fired rest due later ih =>
      obtain ⟨tail, fresh⟩ := population.drop
      rcases List.mem_cons.mp he with rfl | old
      · obtain ⟨stamp, -, positive, fits⟩ := population.head due
        have spent := (Timer.again_spec stamp positive fits).2.2
        rw [firingsOf_cons_self rfl, later.foreign fresh, List.length_singleton, ← spent]
        exact Nat.le_add_left 1 _
      · rw [firingsOf_cons_ne fun same => fresh (mem_ids.mpr ⟨e, old, same.symm⟩)]
        exact ih tail old
  | @again key item es fired rest due later ih =>
      obtain ⟨tail, fresh⟩ := population.drop
      rcases List.mem_cons.mp he with rfl | old
      · obtain ⟨stamp, -, positive, fits⟩ := population.head due
        have spent := (Timer.again_spec stamp positive fits).2.2
        have behind : (firingsOf item.id fired).length ≤ (item.again t).firings t :=
          ih (population.again due) (mem_insert.mpr (.inl rfl))
        rw [firingsOf_cons_self rfl, List.length_cons, ← spent]
        exact Nat.succ_le_succ behind
      · rw [firingsOf_cons_ne fun same => fresh (mem_ids.mpr ⟨e, old, same.symm⟩)]
        exact ih (population.again due) (mem_insert.mpr (.inr old))

theorem Drains.length_le_sum (h : Drains t entries fired rest)
    (population : Population t entries) :
    fired.length ≤ (entries.map fun e => e.2.firings t).sum := by
  induction h with
  | stop entries => exact Nat.zero_le _
  | @drop key item es fired rest due later ih =>
      obtain ⟨stamp, -, positive, fits⟩ := population.head due
      have spent := (Timer.again_spec stamp positive fits).2.2
      have behind := ih population.drop.1
      rw [List.length_cons, List.map_cons, List.sum_cons, ← spent]
      omega
  | @again key item es fired rest due later ih =>
      obtain ⟨stamp, -, positive, fits⟩ := population.head due
      have spent := (Timer.again_spec stamp positive fits).2.2
      have behind := ih (population.again due)
      have total : ((insert (item.again t).timestamp (item.again t) es).map
          fun e => e.2.firings t).sum =
            (item.again t).firings t + (es.map fun e => e.2.firings t).sum :=
        ((insert_perm _ _ es).map _).sum_nat
      rw [List.length_cons, List.map_cons, List.sum_cons, ← spent]
      omega

/-- At most two firings for each entry, so the loop ends. -/
theorem Drains.length_le (h : Drains t entries fired rest) (population : Population t entries) :
    fired.length ≤ 2 * entries.length := by
  have each : ∀ n ∈ entries.map fun e => e.2.firings t, n ≤ 2 := fun n hn => by
    obtain ⟨e, -, rfl⟩ := List.mem_map.mp hn
    exact e.2.firings_le t
  have total := List.sum_le_card_nsmul _ 2 each
  rw [List.length_map, smul_eq_mul] at total
  have most := h.length_le_sum population
  omega

/-- What is put back comes no earlier than what has fired. -/
theorem Drains.ordered (h : Drains t entries fired rest) (population : Population t entries) :
    (fired.map fun f => f.1.timestamp).Pairwise (· ≤ ·) ∧
      (∀ b, b ≤ t → (∀ e ∈ entries, b ≤ e.1) → ∀ f ∈ fired, b ≤ f.1.timestamp) ∧
      ∀ f ∈ fired, f.1.timestamp ≤ t := by
  induction h with
  | stop entries => exact ⟨List.Pairwise.nil, nofun, nofun⟩
  | @drop key item es fired rest due later ih =>
      obtain ⟨ordered, above, below⟩ := ih population.drop.1
      obtain ⟨stamp, same, -, -⟩ := population.head due
      have first := (List.pairwise_cons.mp population.sorted).1
      refine ⟨List.pairwise_cons.mpr ⟨fun s hs => ?_, ordered⟩, fun b hb low f hf => ?_,
        fun f hf => ?_⟩
      · obtain ⟨f, hf, rfl⟩ := List.mem_map.mp hs
        exact above item.timestamp stamp (fun e he => same ▸ first e he) f hf
      · rcases List.mem_cons.mp hf with rfl | old
        · exact same ▸ low _ List.mem_cons_self
        · exact above b hb (fun e he => low e (List.mem_cons_of_mem _ he)) f old
      · rcases List.mem_cons.mp hf with rfl | old
        · exact stamp
        · exact below f old
  | @again key item es fired rest due later ih =>
      obtain ⟨ordered, above, below⟩ := ih (population.again due)
      obtain ⟨stamp, same, positive, fits⟩ := population.head due
      have back := (Timer.again_spec stamp positive fits).1
      have first := (List.pairwise_cons.mp population.sorted).1
      refine ⟨List.pairwise_cons.mpr ⟨fun s hs => ?_, ordered⟩, fun b hb low f hf => ?_,
        fun f hf => ?_⟩
      · obtain ⟨f, hf, rfl⟩ := List.mem_map.mp hs
        refine above item.timestamp stamp (fun e he => ?_) f hf
        rcases mem_insert.mp he with rfl | old
        · exact Nat.le_trans stamp back
        · exact same ▸ first e old
      · rcases List.mem_cons.mp hf with rfl | old
        · exact same ▸ low _ List.mem_cons_self
        · refine above b hb (fun e he => ?_) f old
          rcases mem_insert.mp he with rfl | inside
          · exact Nat.le_trans hb back
          · exact low e (List.mem_cons_of_mem _ inside)
      · rcases List.mem_cons.mp hf with rfl | old
        · exact stamp
        · exact below f old

theorem Drains.due_fires (h : Drains t entries fired rest) (settled : ∀ e ∈ rest, t < e.1)
    {e : Nat × Timer} (he : e ∈ entries) (due : e.1 ≤ t) : firingsOf e.2.id fired ≠ [] := by
  induction h with
  | stop entries =>
      have ahead := settled e he
      omega
  | @drop key item es fired rest first later ih =>
      by_cases same : item.id = e.2.id
      · rw [firingsOf_cons_self same]
        exact List.cons_ne_nil _ _
      · rw [firingsOf_cons_ne same]
        rcases List.mem_cons.mp he with rfl | old
        · exact absurd rfl same
        · exact ih settled old
  | @again key item es fired rest first later ih =>
      by_cases same : item.id = e.2.id
      · rw [firingsOf_cons_self same]
        exact List.cons_ne_nil _ _
      · rw [firingsOf_cons_ne same]
        rcases List.mem_cons.mp he with rfl | old
        · exact absurd rfl same
        · exact ih settled (mem_insert.mpr (.inr old))

/-- The answer of the last callback of a timer. -/
def lastAnswer (id : Nat) (fired : List (Timer × Bool)) : Option Bool :=
  (firingsOf id fired).getLast?.map Prod.snd

theorem lastAnswer_cons_self {id : Nat} {b : Bool} (same : item.id = id) :
    lastAnswer id ((item, b) :: fired) = some ((lastAnswer id fired).getD b) := by
  rw [lastAnswer, lastAnswer, firingsOf_cons_self same]
  cases firingsOf id fired with
  | nil => rfl
  | cons f fs => simp [List.getLast?_cons]

theorem Drains.remains (h : Drains t entries fired rest) (population : Population t entries)
    (settled : ∀ e ∈ rest, t < e.1) {e : Nat × Timer} (he : e ∈ entries) :
    e.2.id ∈ ids rest ↔ t < e.1 ∨ lastAnswer e.2.id fired = some true := by
  induction h generalizing e with
  | stop entries =>
      exact ⟨fun _ => .inl (settled e he), fun _ => mem_ids.mpr ⟨e, he, rfl⟩⟩
  | @drop key item es fired rest due later ih =>
      obtain ⟨tail, fresh⟩ := population.drop
      rcases List.mem_cons.mp he with rfl | old
      · have gone : item.id ∉ ids rest := fun inside => fresh (later.ids_subset inside)
        have none_ : lastAnswer item.id fired = none := by
          rw [lastAnswer, later.foreign fresh]
          rfl
        rw [lastAnswer_cons_self rfl, none_]
        simp [gone, due]
      · have other : item.id ≠ e.2.id := fun same => fresh (mem_ids.mpr ⟨e, old, same.symm⟩)
        rw [ih tail settled old, lastAnswer, lastAnswer, firingsOf_cons_ne other]
  | @again key item es fired rest due later ih =>
      obtain ⟨tail, fresh⟩ := population.drop
      rcases List.mem_cons.mp he with rfl | old
      · have inside : ((item.again t).timestamp, item.again t) ∈
            insert (item.again t).timestamp (item.again t) es := mem_insert.mpr (.inl rfl)
        have step : item.id ∈ ids rest ↔
            t < (item.again t).timestamp ∨ lastAnswer item.id fired = some true :=
          ih (population.again due) settled inside
        rw [lastAnswer_cons_self rfl, step]
        by_cases ahead : t < (item.again t).timestamp
        · -- Behind the clock it does not fire again, and this answer is the last.
          have silent : firingsOf item.id fired = [] := by
            have most : (firingsOf item.id fired).length ≤ (item.again t).firings t :=
              later.firings_le (population.again due) inside
            rw [Timer.firings_early ahead] at most
            exact List.eq_nil_of_length_eq_zero (Nat.le_zero.mp most)
          have none_ : lastAnswer item.id fired = none := by
            rw [lastAnswer, silent]
            rfl
          simp [ahead, none_]
        · have fires : firingsOf item.id fired ≠ [] :=
            later.due_fires settled inside (Nat.le_of_not_lt ahead)
          obtain ⟨b, answer⟩ : ∃ b, lastAnswer item.id fired = some b := by
            rw [lastAnswer, List.getLast?_eq_getLast_of_ne_nil fires]
            exact ⟨_, rfl⟩
          simp [ahead, answer, Nat.not_lt.mpr due]
      · have other : item.id ≠ e.2.id := fun same => fresh (mem_ids.mpr ⟨e, old, same.symm⟩)
        rw [ih (population.again due) settled (mem_insert.mpr (.inr old)), lastAnswer, lastAnswer,
          firingsOf_cons_ne other]

end Drains

section Pass

/-- What do_timer does while the clock reads `t` and callbacks leave the manager alone. -/
def Action.InPass (t : Nat) : Action → Prop
  | .loop => True
  | .finish _ now => now = t
  | _ => False

/-- The callbacks of a run, each with its timer and its answer. -/
def firings : System → List Action → List (Timer × Bool)
  | _, [] => []
  | s, a :: as =>
      match step s a with
      | none => []
      | some u =>
          match s.pc, a with
          | .running item _, .finish again _ => (item, again) :: firings u as
          | _, _ => firings u as

/-- The entries together with the one that do_timer has taken out. -/
def System.pending (s : System) : List (Nat × Timer) :=
  match s.pc with
  | .running item _ => (item.timestamp, item) :: s.entries
  | _ => s.entries

/-- The steps since the head of the loop. -/
def Pc.taken : Pc → Nat
  | .looping _ => 0
  | _ => 1

/-- do_timer is in its loop at clock `t`. -/
structure Active (t : Nat) (s : System) : Prop where
  key : ∀ e ∈ s.entries, e.1 = e.2.timestamp
  clock : s.pc = .looping t ∨ ∃ item, s.pc = .running item t ∧ item.timestamp ≤ t

/-- What do_timer returns with these entries left. -/
def waitTime (t : Nat) : List (Nat × Timer) → Nat
  | [] => 0
  | e :: _ => e.1 - t

structure Returned (t : Nat) (s : System) : Prop where
  pc : s.pc = .idle
  settled : ∀ e ∈ s.entries.head?, t < e.1
  wait : s.history.getLast? = some (.returned (waitTime t s.entries))

variable {t : Nat} {s u v : System} {as : List Action}

theorem firings_loop (h : step s .loop = some u) : firings s (.loop :: as) = firings u as := by
  simp only [firings, h]
  cases s.pc with
  | idle | looping _ | running _ _ => rfl

theorem firings_finish {again : Bool} {now before : Nat} {item : Timer}
    (pc : s.pc = .running item before) (h : step s (.finish again now) = some u) :
    firings s (.finish again now :: as) = (item, again) :: firings u as := by
  simp only [firings, h, pc]

theorem firings_doTimer {now : Nat} (h : step s (.doTimer now) = some u) :
    firings s (.doTimer now :: as) = firings u as := by
  simp only [firings, h]
  cases s.pc with
  | idle | looping _ | running _ _ => rfl

/-- Nothing of a pass is left to do once do_timer has returned. -/
theorem Returned.stops (h : Returned t s) (pass : ∀ a ∈ as, a.InPass t)
    (run : runs step s as = some u) : as = [] ∧ u = s := by
  cases as with
  | nil =>
      cases run
      exact ⟨rfl, rfl⟩
  | cons a as =>
      obtain ⟨v, taken, -⟩ := Option.bind_eq_some_iff.mp run
      have inside := pass a List.mem_cons_self
      cases a with
      | setTimer _ _ _ | cancelTimer _ | clearAll | doTimer _ => cases inside
      | loop =>
          obtain ⟨now, pc, -⟩ := loop_cases taken
          cases pc.symm.trans h.pc
      | finish again now =>
          obtain ⟨item, before, pc, -⟩ := finish_cases taken
          cases pc.symm.trans h.pc

theorem Active.looping {now : Nat} (h : Active t s) (pc : s.pc = .looping now) : now = t := by
  rcases h.clock with here | ⟨item, here, -⟩
  · exact Pc.looping.inj (pc.symm.trans here)
  · cases pc.symm.trans here

theorem Active.running {item : Timer} {now : Nat} (h : Active t s)
    (pc : s.pc = .running item now) : now = t ∧ item.timestamp ≤ t := by
  rcases h.clock with here | ⟨i, here, due⟩
  · cases pc.symm.trans here
  · obtain ⟨rfl, rfl⟩ := Pc.running.inj (pc.symm.trans here)
    exact ⟨rfl, due⟩

/-- A turn of the loop takes an entry that is due out, or it is the last one. -/
theorem Active.turn (active : Active t s) (taken : step s .loop = some v) :
    v.pending = s.pending ∧ s.pc.taken = 0 ∧ v.pc.taken = 1 ∧ (Active t v ∨ Returned t v) := by
  obtain ⟨now, pc, ending⟩ := loop_cases taken
  obtain rfl := active.looping pc
  have head : s.pending = s.entries := by rw [System.pending, pc]
  have start : s.pc.taken = 0 := by rw [pc]; rfl
  rcases ending with ⟨empty, rfl⟩ | ⟨key, item, es, entries, due, rfl⟩ |
    ⟨key, item, es, entries, early, rfl⟩
  · refine ⟨head.symm, start, rfl, .inr ⟨rfl, ?_, ?_⟩⟩
    · simp [System.log, empty]
    · simp [System.log, empty, waitTime]
  · have same : key = item.timestamp := active.key (key, item) (entries ▸ List.mem_cons_self)
    refine ⟨?_, start, rfl, .inl ⟨fun e he => ?_, .inr ⟨item, rfl, same ▸ due⟩⟩⟩
    · rw [head, entries, same]
      rfl
    · exact active.key e (entries ▸ List.mem_cons_of_mem _ he)
  · refine ⟨head.symm, start, rfl, .inr ⟨rfl, ?_, ?_⟩⟩
    · simpa [System.log, entries] using early
    · simp [System.log, entries, waitTime]

/-- The end of a callback drains its timer. -/
theorem Active.answered {again : Bool} (active : Active t s)
    (taken : step s (.finish again t) = some v) :
    ∃ item, (∃ before, s.pc = .running item before) ∧ v.pc.taken = 0 ∧ Active t v ∧
      ∀ fired rest, Drains t v.pending fired rest →
        Drains t s.pending ((item, again) :: fired) rest := by
  obtain ⟨item, before, pc, ending⟩ := finish_cases taken
  obtain ⟨rfl, due⟩ := active.running pc
  have head : s.pending = (item.timestamp, item) :: s.entries := by rw [System.pending, pc]
  refine ⟨item, ⟨before, pc⟩, ?_⟩
  rw [head]
  rcases ending with ⟨rfl, rfl⟩ | ⟨rfl, rfl⟩
  · refine ⟨rfl, ⟨fun e he => ?_, .inl rfl⟩, fun _ _ drains => .again due drains⟩
    rcases mem_insert.mp he with rfl | old
    · rfl
    · exact active.key e old
  · exact ⟨rfl, ⟨active.key, .inl rfl⟩, fun _ _ drains => .drop due drains⟩

/-- A pass that is under way drains the entries, two steps for each callback. -/
theorem pass_run (active : Active t s) (pass : ∀ a ∈ as, a.InPass t)
    (run : runs step s as = some u) :
    Drains t s.pending (firings s as) u.pending ∧
      as.length + s.pc.taken = 2 * (firings s as).length + u.pc.taken ∧
      (Active t u ∨ Returned t u) := by
  induction as generalizing s with
  | nil =>
      cases run
      exact ⟨.stop _, by simp [firings], .inl active⟩
  | cons a as ih =>
      obtain ⟨v, taken, rest⟩ := Option.bind_eq_some_iff.mp run
      have inside := pass a List.mem_cons_self
      have later : ∀ a ∈ as, a.InPass t := fun a ha => pass a (List.mem_cons_of_mem _ ha)
      cases a with
      | setTimer _ _ _ | cancelTimer _ | clearAll | doTimer _ => cases inside
      | loop =>
          obtain ⟨pending, before, after, next | done⟩ := active.turn taken
          · obtain ⟨drains, length, ended⟩ := ih next later rest
            rw [firings_loop taken, ← pending, List.length_cons]
            exact ⟨drains, by omega, ended⟩
          · obtain ⟨rfl, rfl⟩ := done.stops later rest
            rw [firings_loop taken, ← pending, before, after]
            exact ⟨.stop _, rfl, .inr done⟩
      | finish again now =>
          obtain rfl : now = t := inside
          obtain ⟨item, ⟨start, pc⟩, after, next, drains⟩ := active.answered taken
          obtain ⟨others, length, ended⟩ := ih next later rest
          have before : s.pc.taken = 1 := by rw [pc]; rfl
          rw [firings_finish pc taken, List.length_cons, List.length_cons]
          exact ⟨drains _ _ others, by omega, ended⟩

/-- While do_timer is in its loop there is a step, and in a callback one for each answer. -/
theorem Active.progress (h : Active t s) (again : Bool) :
    ∃ a, (a = .loop ∨ a = .finish again t) ∧ (step s a).isSome := by
  rcases h.clock with pc | ⟨item, pc, -⟩
  · refine ⟨.loop, .inl rfl, ?_⟩
    simp only [step, pc]
    cases s.entries with
    | nil => rfl
    | cons e es =>
        simp only
        split
        · rfl
        · rfl
  · refine ⟨.finish again t, .inr rfl, ?_⟩
    simp only [step, pc]
    cases again
    · rfl
    · rfl

/-- A complete pass at `t` over the entries, with the callbacks that ran, the entries it
leaves and what do_timer returned. -/
structure FiresDue (t : Nat) (entries : List (Nat × Timer)) (fired : List (Timer × Bool))
    (rest : List (Nat × Timer)) (wait : Nat) : Prop where
  due : ∀ e ∈ entries, e.2.timestamp ≤ t → firingsOf e.2.id fired ≠ []
  early : ∀ e ∈ entries, t < e.2.timestamp → firingsOf e.2.id fired = []
  twice : ∀ e ∈ entries, (firingsOf e.2.id fired).length ≤ 2
  once : ∀ e ∈ entries, e.2.relative = true → (firingsOf e.2.id fired).length ≤ 1
  others : ∀ f ∈ fired, f.1.timestamp ≤ t ∧ f.1.id ∈ ids entries
  remains : ∀ e ∈ entries,
    e.2.id ∈ ids rest ↔ t < e.2.timestamp ∨ lastAnswer e.2.id fired = some true
  kept : (ids rest).Nodup ∧ ids rest ⊆ ids entries
  ordered : (fired.map fun f => f.1.timestamp).Pairwise (· ≤ ·)
  settled : ∀ e ∈ rest, t < e.2.timestamp
  wait : if rest = [] then wait = 0
    else ∃ e ∈ rest, wait = e.2.timestamp - t ∧ ∀ e' ∈ rest, e.2.timestamp ≤ e'.2.timestamp

theorem Drains.fires_due {entries rest : List (Nat × Timer)} {fired : List (Timer × Bool)}
    (h : Drains t entries fired rest) (population : Population t entries)
    (head : ∀ e ∈ rest.head?, t < e.1) : FiresDue t entries fired rest (waitTime t rest) := by
  have left : Population t rest := h.population population
  have settled : ∀ e ∈ rest, t < e.1 := by
    cases rest with
    | nil => nofun
    | cons d rest =>
        intro e he
        have first : t < d.1 := head d rfl
        rcases List.mem_cons.mp he with rfl | old
        · exact first
        · exact Nat.lt_of_lt_of_le first ((List.pairwise_cons.mp left.sorted).1 e old)
  obtain ⟨ordered, -, below⟩ := h.ordered population
  have most {e : Nat × Timer} (he : e ∈ entries) := h.firings_le population he
  refine ⟨fun e he due => ?_, fun e he early => ?_, fun e he => ?_, fun e he relative => ?_,
    fun f hf => ⟨below f hf, ?_⟩, fun e he => ?_, ⟨left.distinct, h.ids_subset⟩, ordered,
    fun e he => ?_, ?_⟩
  · exact h.due_fires settled he (population.key e he ▸ due)
  · have none_ := most he
    rw [Timer.firings_early early] at none_
    exact List.eq_nil_of_length_eq_zero (Nat.le_zero.mp none_)
  · exact Nat.le_trans (most he) (Timer.firings_le t e.2)
  · exact Nat.le_trans (most he) (Timer.firings_relative relative)
  · by_contra out
    have none_ : f ∈ firingsOf f.1.id fired := List.mem_filter.mpr ⟨hf, by simp⟩
    rw [h.foreign out] at none_
    cases none_
  · rw [← population.key e he]
    exact h.remains population settled he
  · exact left.key e he ▸ settled e he
  · cases rest with
    | nil => rfl
    | cons d rest =>
        rw [if_neg (List.cons_ne_nil d rest)]
        have key (e : Nat × Timer) (he : e ∈ d :: rest) := left.key e he
        refine ⟨d, List.mem_cons_self, ?_, fun e he => ?_⟩
        · rw [waitTime, key d List.mem_cons_self]
        · rw [← key d List.mem_cons_self, ← key e he]
          rcases List.mem_cons.mp he with rfl | old
          · exact Nat.le_refl _
          · exact (List.pairwise_cons.mp left.sorted).1 e old

/-- A pass of do_timer ends after a bounded number of steps, is never stuck before, and
then has fired exactly what is due. -/
theorem pass_fires_due (idle : s.pc = .idle) (population : Population t s.entries)
    (pass : ∀ a ∈ as, a.InPass t) (run : runs step s (.doTimer t :: as) = some u) :
    as.length ≤ 4 * s.entries.length + 1 ∧
      (u.pc ≠ .idle → ∀ again, ∃ a, (a = .loop ∨ a = .finish again t) ∧ (step u a).isSome) ∧
      (u.pc = .idle → ∃ wait, u.history.getLast? = some (.returned wait) ∧
        FiresDue t s.entries (firings s (.doTimer t :: as)) u.entries wait) := by
  obtain ⟨v, taken, rest⟩ := Option.bind_eq_some_iff.mp run
  rw [firings_doTimer taken]
  simp only [step, idle] at taken
  split at taken
  · case isTrue empty =>
      obtain rfl := Option.some.inj taken
      have done : Returned t (s.log (.returned 0)) := by
        refine ⟨idle, ?_, ?_⟩
        · simp [System.log, empty]
        · simp [System.log, empty, waitTime]
      obtain ⟨rfl, rfl⟩ := done.stops pass rest
      refine ⟨Nat.zero_le _, fun other => absurd idle other, fun _ => ⟨_, done.wait, ?_⟩⟩
      exact (Drains.stop s.entries).fires_due population done.settled
  · case isFalse filled =>
      obtain rfl := Option.some.inj taken
      have active : Active t { s with pc := .looping t } := ⟨population.key, .inl rfl⟩
      obtain ⟨drains, length, ended⟩ := pass_run active pass rest
      have drains : Drains t s.entries (firings { s with pc := .looping t } as) u.pending := drains
      have fired := drains.length_le population
      refine ⟨?_, fun other => ?_, fun back => ?_⟩
      · have start : (Pc.looping t).taken = 0 := rfl
        have last : u.pc.taken ≤ 1 := by
          cases u.pc with
          | looping _ => exact Nat.zero_le 1
          | idle | running _ _ => exact Nat.le_refl 1
        have length : as.length + (Pc.looping t).taken = _ := length
        omega
      · rcases ended with active | returned
        · exact active.progress
        · exact absurd returned.pc other
      · rcases ended with active | returned
        · rcases active.clock with pc | ⟨item, pc, -⟩
          · cases pc.symm.trans back
          · cases pc.symm.trans back
        · have all : u.pending = u.entries := by rw [System.pending, back]
          exact ⟨_, returned.wait, (all ▸ drains).fires_due population returned.settled⟩

def lateEntries : List (Nat × Timer) :=
  [(1, ⟨1, 2, 1, false⟩), (4, ⟨2, 3, 4, true⟩), (9, ⟨3, 1, 9, false⟩)]

/-- A late timer fires twice, the second time at the clock. -/
theorem pass_fires_due_late :
    ∃ u wait, runs step { entries := lateEntries, id := 3, pc := .idle, history := [] }
        [.doTimer 5, .loop, .finish true 5, .loop, .finish true 5, .loop, .finish true 5, .loop] =
          some u ∧
      u.history.getLast? = some (.returned wait) ∧
      FiresDue 5 lateEntries
        [(⟨1, 2, 1, false⟩, true), (⟨2, 3, 4, true⟩, true), (⟨1, 2, 5, false⟩, true)]
        u.entries wait := by
  have population : Population 5 lateEntries := by
    refine ⟨⟨by decide, by decide, by decide, by decide⟩, by decide⟩
  have all := @pass_fires_due 5 ⟨lateEntries, 3, .idle, []⟩ _
    [.loop, .finish true 5, .loop, .finish true 5, .loop, .finish true 5, .loop] rfl population
    (by simp [Action.InPass]) rfl
  obtain ⟨wait, returned, fires⟩ := all.2.2 rfl
  exact ⟨_, wait, rfl, returned, fires⟩

end Pass

end HZRobot.TimerManager
