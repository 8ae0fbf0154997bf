import Mathlib.Data.List.Nodup

/-!
Ordered containers as lists in the order of their keys. emplace leaves an entry alone
whose key is equivalent to the new one.
-/

namespace HZRobot.OrderedMap

variable {κ ν : Type*} (less : κ → κ → Bool)

def emplace (key : κ) (value : ν) : List (κ × ν) → List (κ × ν)
  | [] => [(key, value)]
  | e :: es =>
      if less key e.1 then (key, value) :: e :: es
      else if less e.1 key then e :: emplace key value es
      else e :: es

theorem mem_emplace {key : κ} {value : ν} {es : List (κ × ν)} {e : κ × ν}
    (h : e ∈ emplace less key value es) : e = (key, value) ∨ e ∈ es := by
  induction es with
  | nil => exact .inl (List.mem_singleton.mp h)
  | cons first es ih =>
      unfold emplace at h
      split at h
      · exact List.mem_cons.mp h
      split at h
      · rcases List.mem_cons.mp h with rfl | later
        · exact .inr List.mem_cons_self
        · exact (ih later).imp id (List.mem_cons_of_mem _)
      · exact .inr h

/-- A key behind all others goes to the end. -/
theorem emplace_last {key : κ} (value : ν) {es : List (κ × ν)}
    (last : ∀ e ∈ es, less key e.1 = false ∧ less e.1 key = true) :
    emplace less key value es = es ++ [(key, value)] := by
  induction es with
  | nil => rfl
  | cons e es ih =>
      obtain ⟨notLess, less_⟩ := last e List.mem_cons_self
      rw [emplace, notLess, less_, ih fun e' he => last e' (List.mem_cons_of_mem _ he)]
      rfl

theorem emplace_sorted (trans : ∀ a b c, less a b = true → less b c = true → less a c = true)
    {key : κ} (value : ν) {es : List (κ × ν)}
    (sorted : es.Pairwise fun a b => less a.1 b.1 = true) :
    (emplace less key value es).Pairwise fun a b => less a.1 b.1 = true := by
  induction es with
  | nil => exact List.pairwise_singleton _ _
  | cons e es ih =>
      obtain ⟨first, rest⟩ := List.pairwise_cons.mp sorted
      unfold emplace
      split
      · case isTrue front =>
          refine List.pairwise_cons.mpr ⟨fun b hb => ?_, sorted⟩
          rcases List.mem_cons.mp hb with rfl | later
          · exact front
          · exact trans _ _ _ front (first b later)
      split
      · case isTrue behind =>
          refine List.pairwise_cons.mpr ⟨fun b hb => ?_, ih rest⟩
          rcases mem_emplace less hb with rfl | old
          · exact behind
          · exact first b old
      · exact sorted

/-- A new key is added. -/
theorem emplace_perm {key : κ} (value : ν) {es : List (κ × ν)}
    (new : ∀ e ∈ es, less key e.1 = true ∨ less e.1 key = true) :
    (emplace less key value es).Perm ((key, value) :: es) := by
  induction es with
  | nil => exact .refl _
  | cons e es ih =>
      unfold emplace
      split
      · exact .refl _
      · case isFalse front =>
          have behind := (new e List.mem_cons_self).resolve_left front
          rw [if_pos behind]
          have rest := ih fun e' he => new e' (List.mem_cons_of_mem _ he)
          exact (rest.cons e).trans (.swap _ _ _)

/-- Entries with keys of their own are all kept. -/
theorem foldl_emplace_perm (front : List (κ × ν)) {es : List (κ × ν)}
    (new : (front ++ es).Pairwise fun a b => less a.1 b.1 = true ∨ less b.1 a.1 = true) :
    (es.foldl (fun val e => emplace less e.1 e.2 val) front).Perm (front ++ es) := by
  induction es generalizing front with
  | nil =>
      rw [List.append_nil]
      exact .refl _
  | cons e es ih =>
      have other : ∀ a ∈ front, less e.1 a.1 = true ∨ less a.1 e.1 = true := fun a ha =>
        (List.pairwise_append.mp new).2.2 a ha e List.mem_cons_self |>.symm
      have added : (emplace less e.1 e.2 front ++ es).Perm (front ++ e :: es) :=
        ((emplace_perm less e.2 other).append_right es).trans List.perm_middle.symm
      exact (ih _ (added.symm.pairwise new fun h => h.symm)).trans added

/-- What depends on its own entry alone may be put in before or afterwards. -/
theorem emplace_map {ν' : Type*} (f : κ × ν → ν') (key : κ) (value : ν) (es : List (κ × ν)) :
    emplace less key (f (key, value)) (es.map fun e => (e.1, f e)) =
      (emplace less key value es).map fun e => (e.1, f e) := by
  induction es with
  | nil => rfl
  | cons e es ih =>
      rw [List.map_cons, emplace, emplace]
      split
      · rfl
      split
      · rw [List.map_cons, ih]
      · rfl

theorem foldl_emplace_map {ν' : Type*} (f : κ × ν → ν') (es front : List (κ × ν)) :
    (es.map fun e => (e.1, f e)).foldl (fun val e => emplace less e.1 e.2 val)
        (front.map fun e => (e.1, f e)) =
      (es.foldl (fun val e => emplace less e.1 e.2 val) front).map fun e => (e.1, f e) := by
  induction es generalizing front with
  | nil => rfl
  | cons e es ih =>
      rw [List.map_cons, List.foldl_cons, List.foldl_cons, ← ih, emplace_map less f]

/-- Entries that come in order are kept as they are. -/
theorem foldl_emplace_sorted {less : κ → κ → Bool}
    (asymm : ∀ a b, less a b = true → less b a = false) (front es : List (κ × ν))
    (sorted : (front ++ es).Pairwise fun a b => less a.1 b.1 = true) :
    es.foldl (fun val e => emplace less e.1 e.2 val) front = front ++ es := by
  induction es generalizing front with
  | nil => exact (List.append_nil front).symm
  | cons e es ih =>
      have last : ∀ e' ∈ front, less e.1 e'.1 = false ∧ less e'.1 e.1 = true := fun e' he => by
        have lt := (List.pairwise_append.mp sorted).2.2 e' he e List.mem_cons_self
        exact ⟨asymm _ _ lt, lt⟩
      rw [List.foldl_cons, emplace_last less e.2 last]
      have again := ih (front ++ [e]) (by simpa using sorted)
      rw [List.append_assoc] at again
      exact again

theorem mem_emplace_of_mem {key : κ} {value : ν} {es : List (κ × ν)} {e : κ × ν} (h : e ∈ es) :
    e ∈ emplace less key value es := by
  induction es with
  | nil => cases h
  | cons first es ih =>
      unfold emplace
      split
      · exact List.mem_cons_of_mem _ h
      split
      · rcases List.mem_cons.mp h with rfl | later
        · exact List.mem_cons_self
        · exact List.mem_cons_of_mem _ (ih later)
      · exact h

/-- A key that is equivalent to no other is added. -/
theorem mem_emplace_self {key : κ} (value : ν) {es : List (κ × ν)}
    (apart : ∀ e ∈ es, less key e.1 = true ∨ less e.1 key = true) :
    (key, value) ∈ emplace less key value es := by
  induction es with
  | nil => exact List.mem_cons_self
  | cons first es ih =>
      unfold emplace
      split
      · exact List.mem_cons_self
      · case isFalse notFront =>
          rw [if_pos ((apart first List.mem_cons_self).resolve_left notFront)]
          exact List.mem_cons_of_mem _ (ih fun e he => apart e (List.mem_cons_of_mem _ he))

theorem mem_foldl_emplace {es front : List (κ × ν)} {e : κ × ν}
    (h : e ∈ es.foldl (fun val e => emplace less e.1 e.2 val) front) : e ∈ front ∨ e ∈ es := by
  induction es generalizing front with
  | nil => exact .inl h
  | cons first es ih =>
      rcases ih h with new | later
      · rcases mem_emplace less new with rfl | old
        · exact .inr List.mem_cons_self
        · exact .inl old
      · exact .inr (List.mem_cons_of_mem _ later)

theorem mem_foldl_emplace_of_mem {es front : List (κ × ν)} {e : κ × ν} (h : e ∈ front) :
    e ∈ es.foldl (fun val e => emplace less e.1 e.2 val) front := by
  induction es generalizing front with
  | nil => exact h
  | cons first es ih => exact ih (mem_emplace_of_mem less h)

theorem foldl_emplace_pairwise
    (trans : ∀ a b c, less a b = true → less b c = true → less a c = true) (es : List (κ × ν))
    {front : List (κ × ν)} (sorted : front.Pairwise fun a b => less a.1 b.1 = true) :
    (es.foldl (fun val e => emplace less e.1 e.2 val) front).Pairwise
      fun a b => less a.1 b.1 = true := by
  induction es generalizing front with
  | nil => exact sorted
  | cons first es ih => exact ih (emplace_sorted less trans _ sorted)

/-- The entry with a key is found wherever it stands. -/
theorem find?_of_mem [DecidableEq κ] (irrefl : ∀ a, less a a = false) {es : List (κ × ν)}
    (sorted : es.Pairwise fun a b => less a.1 b.1 = true) {e : κ × ν} (h : e ∈ es) :
    es.find? (fun e' => e'.1 = e.1) = some e := by
  induction es with
  | nil => cases h
  | cons first es ih =>
      obtain ⟨ahead, rest⟩ := List.pairwise_cons.mp sorted
      rcases List.mem_cons.mp h with rfl | later
      · exact List.find?_cons_of_pos (by simp)
      · have other : first.1 ≠ e.1 := fun same => by
          have less_ := ahead e later
          rw [same, irrefl] at less_
          cases less_
        rw [List.find?_cons_of_neg (by simpa using other), ih rest later]

/-- The first of the entries with a key is the one that is kept. -/
theorem find?_foldl_emplace [DecidableEq κ] (irrefl : ∀ a, less a a = false)
    (trans : ∀ a b c, less a b = true → less b c = true → less a c = true)
    {front back : List (κ × ν)} {e : κ × ν}
    (apart : ∀ e' ∈ front, less e.1 e'.1 = true ∨ less e'.1 e.1 = true) :
    ((front ++ e :: back).foldl (fun val e => emplace less e.1 e.2 val) []).find?
      (fun e' => e'.1 = e.1) = some e := by
  refine find?_of_mem less irrefl (foldl_emplace_pairwise less trans _ List.Pairwise.nil) ?_
  rw [List.foldl_append, List.foldl_cons]
  refine mem_foldl_emplace_of_mem less (mem_emplace_self less _ fun e' he => ?_)
  rcases mem_foldl_emplace less he with none_ | inside
  · cases none_
  · exact apart e' inside

/-- The assignment through operator[]: an equivalent key keeps its place and gets the value. -/
def put (key : κ) (value : ν) : List (κ × ν) → List (κ × ν)
  | [] => [(key, value)]
  | e :: es =>
      if less key e.1 then (key, value) :: e :: es
      else if less e.1 key then e :: put key value es
      else (e.1, value) :: es

theorem mem_put_key {key : κ} {value : ν} {es : List (κ × ν)} {e : κ × ν}
    (h : e ∈ put less key value es) : e.1 = key ∨ ∃ e' ∈ es, e.1 = e'.1 := by
  induction es with
  | nil => exact .inl (congrArg Prod.fst (List.mem_singleton.mp h))
  | cons first es ih =>
      unfold put at h
      split at h
      · rcases List.mem_cons.mp h with rfl | old
        · exact .inl rfl
        · exact .inr ⟨e, old, rfl⟩
      split at h
      · rcases List.mem_cons.mp h with rfl | later
        · exact .inr ⟨e, List.mem_cons_self, rfl⟩
        · rcases ih later with new | ⟨e', he', same⟩
          · exact .inl new
          · exact .inr ⟨e', List.mem_cons_of_mem _ he', same⟩
      · rcases List.mem_cons.mp h with rfl | later
        · exact .inr ⟨first, List.mem_cons_self, rfl⟩
        · exact .inr ⟨e, List.mem_cons_of_mem _ later, rfl⟩

theorem put_sorted (trans : ∀ a b c, less a b = true → less b c = true → less a c = true)
    {key : κ} (value : ν) {es : List (κ × ν)}
    (sorted : es.Pairwise fun a b => less a.1 b.1 = true) :
    (put less key value es).Pairwise fun a b => less a.1 b.1 = true := by
  induction es with
  | nil => exact List.pairwise_singleton _ _
  | cons e es ih =>
      obtain ⟨first, rest⟩ := List.pairwise_cons.mp sorted
      unfold put
      split
      · case isTrue front =>
          refine List.pairwise_cons.mpr ⟨fun b hb => ?_, sorted⟩
          rcases List.mem_cons.mp hb with rfl | later
          · exact front
          · exact trans _ _ _ front (first b later)
      split
      · case isTrue behind =>
          refine List.pairwise_cons.mpr ⟨fun b hb => ?_, ih rest⟩
          rcases mem_put_key less hb with new | ⟨e', he', same⟩
          · rwa [new]
          · rw [same]
            exact first e' he'
      · exact List.pairwise_cons.mpr ⟨first, rest⟩

/-- A second assignment of the same value changes nothing. -/
theorem put_put (irrefl : ∀ a, less a a = false) (key : κ) (value : ν) (es : List (κ × ν)) :
    put less key value (put less key value es) = put less key value es := by
  induction es with
  | nil => simp [put, irrefl]
  | cons e es ih =>
      by_cases front : less key e.1 = true
      · simp [put, front, irrefl]
      · by_cases behind : less e.1 key = true
        · simp [put, front, behind, ih]
        · simp [put, front, behind]

theorem find?_put [DecidableEq κ] (irrefl : ∀ a, less a a = false)
    (total : ∀ a b, less a b = false → less b a = false → a = b) (key : κ) (value : ν)
    (es : List (κ × ν)) :
    (put less key value es).find? (fun e => e.1 = key) = some (key, value) := by
  induction es with
  | nil => exact List.find?_cons_of_pos (by simp)
  | cons e es ih =>
      unfold put
      split
      · exact List.find?_cons_of_pos (by simp)
      · case isFalse notFront =>
          split
          · case isTrue behind =>
              have other : e.1 ≠ key := fun same => by
                rw [same, irrefl] at behind
                cases behind
              rw [List.find?_cons_of_neg (by simpa using other), ih]
          · case isFalse notBehind =>
              have same : e.1 = key :=
                total _ _ (Bool.not_eq_true _ ▸ notBehind) (Bool.not_eq_true _ ▸ notFront)
              rw [List.find?_cons_of_pos (by simpa using same), same]

end HZRobot.OrderedMap

namespace HZRobot

/-- std::map: entries whose keys increase. -/
@[ext]
structure StdMap (κ ν : Type*) [LT κ] [DecidableLT κ] where
  entries : List (κ × ν)
  sorted : entries.Pairwise fun a b => decide (a.1 < b.1) = true

namespace StdMap

variable {κ ν : Type*} [LT κ] [DecidableLT κ]

def empty : StdMap κ ν := ⟨[], .nil⟩

/-- The entries whose value is kept, each with its value changed. -/
def select (keeps : ν → Bool) (f : ν → ν) (m : StdMap κ ν) : StdMap κ ν where
  entries := (m.entries.filter fun e => keeps e.2).map fun e => (e.1, f e.2)
  sorted := List.pairwise_map.mpr (m.sorted.sublist List.filter_sublist)

theorem less_irrefl [Std.Irrefl (α := κ) (· < ·)] (a : κ) : decide (a < a) = false :=
  decide_eq_false (Std.Irrefl.irrefl a)

theorem less_asymm [Std.Asymm (α := κ) (· < ·)] (a b : κ) (ab : decide (a < b) = true) :
    decide (b < a) = false :=
  decide_eq_false (Std.Asymm.asymm a b (of_decide_eq_true ab))

variable [Trans (α := κ) (· < ·) (· < ·) (· < ·)]

theorem less_trans (a b c : κ) (ab : decide (a < b) = true) (bc : decide (b < c) = true) :
    decide (a < c) = true :=
  decide_eq_true (Trans.trans (of_decide_eq_true ab) (of_decide_eq_true bc))

def emplace (key : κ) (value : ν) (m : StdMap κ ν) : StdMap κ ν where
  entries := OrderedMap.emplace (fun a b => decide (a < b)) key value m.entries
  sorted := OrderedMap.emplace_sorted _ less_trans value m.sorted

def put (key : κ) (value : ν) (m : StdMap κ ν) : StdMap κ ν where
  entries := OrderedMap.put (fun a b => decide (a < b)) key value m.entries
  sorted := OrderedMap.put_sorted _ less_trans value m.sorted

def find? [DecidableEq κ] (key : κ) (m : StdMap κ ν) : Option ν :=
  (m.entries.find? fun e => e.1 = key).map Prod.snd

section Put

variable [Std.Irrefl (α := κ) (· < ·)] (key : κ) (value : ν) (m : StdMap κ ν)

theorem put_put : (m.put key value).put key value = m.put key value :=
  StdMap.ext (OrderedMap.put_put (fun a b => decide (a < b)) less_irrefl key value m.entries)

theorem find?_put [DecidableEq κ] [Std.Trichotomous (α := κ) (· < ·)] :
    (m.put key value).find? key = some value := by
  have total (a b : κ) (ab : decide (a < b) = false) (ba : decide (b < a) = false) : a = b :=
    Std.Trichotomous.trichotomous a b (of_decide_eq_false ab) (of_decide_eq_false ba)
  have found := OrderedMap.find?_put (fun a b => decide (a < b)) less_irrefl total key value
    m.entries
  exact congrArg (Option.map Prod.snd) found

end Put

variable [Std.Asymm (α := κ) (· < ·)]

/-- Entries that come in order make a map of themselves. -/
theorem entries_foldl_emplace {ι : Type*} (f : ι → κ × ν) (es : List ι)
    (sorted : (es.map f).Pairwise fun a b => decide (a.1 < b.1) = true) :
    (es.foldl (fun m e => m.emplace (f e).1 (f e).2) empty).entries = es.map f := by
  have entries : ∀ (es : List ι) (m : StdMap κ ν),
      (es.foldl (fun m e => m.emplace (f e).1 (f e).2) m).entries =
        (es.map f).foldl (fun val e => OrderedMap.emplace (fun a b => decide (a < b)) e.1 e.2 val)
          m.entries := by
    intro es
    induction es with
    | nil => exact fun _ => rfl
    | cons e es ih => exact fun m => ih (m.emplace (f e).1 (f e).2)
  rw [entries]
  exact OrderedMap.foldl_emplace_sorted less_asymm [] (es.map f) sorted

/-- The order of std::string, whose maps are the ones the program keeps. -/
instance trans_bytes : Trans (α := List UInt8) (· < ·) (· < ·) (· < ·) := inferInstance

end StdMap

end HZRobot
