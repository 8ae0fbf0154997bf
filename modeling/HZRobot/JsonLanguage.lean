import HZRobot.JsonReading

/-!
The language of the JSON parser, as a grammar over the text that is left. A text is
accepted when one value is taken from it, whatever stands behind. A value may be missing
wherever its first byte begins nothing, a quote of either kind closes at the first one of
its kind without a backslash before it, a key at the first one at all, and a symbol is
taken before a comma or a brace only.
-/

namespace HZRobot.Json

section Grammar

/-- What a text begins as a value. -/
inductive Start where
  | object
  | array
  | number
  | string
  | symbol (type : NodeType) (text : List UInt8)
  | missing
  deriving DecidableEq

def start : List UInt8 → Start
  | [] => .missing
  | c :: t =>
      if c = 123 then .object
      else if c = 91 then .array
      else if isDigit c || (c = 45 && t.head?.any isDigit) then .number
      else if c = 34 ∨ c = 39 then .string
      else
        match symbols.find? (fun symbol => symbol.2.isPrefixOf (c :: t)) with
        | some (type, text) => .symbol type text
        | none => .missing

def skip (t : List UInt8) : List UInt8 := t.dropWhile isBlank

/-- What is left behind the quote that closes a string, with the byte before the text. -/
def closing (quote : UInt8) : UInt8 → List UInt8 → Option (List UInt8)
  | _, [] => none
  | before, c :: t => if c = quote ∧ before ≠ 92 then some t else closing quote c t

/-- Some byte has to follow. -/
def ahead (t : List UInt8) : Option (List UInt8) := if t = [] then none else some t

/-- What is left behind a value that is neither object nor array. -/
def scalarEnd (t : List UInt8) : Option (List UInt8) :=
  match start t with
  | .object | .array => none
  | .number => if malformed (t.takeWhile isNumeric) then none else ahead (t.dropWhile isNumeric)
  | .string => t.head?.bind fun quote => closing quote quote t.tail
  | .symbol _ symbol =>
      let rest := skip (t.drop symbol.length)
      if rest.head? = some 44 ∨ rest.head? = some 125 then some rest else none
  | .missing => if t = [45] then none else some t

/-- How a round of parse_object begins. -/
inductive Opening where
  | fails
  | closes (rest : List UInt8)
  | value (t : List UInt8)

def opened (t : List UInt8) : Opening := if skip t = [] then .fails else .value (skip t)

/-- A key that is empty is not followed by a colon. -/
def behindKey (key t : List UInt8) : Opening :=
  if key = [] then opened t
  else
    match skip t with
    | [] => .fails
    | c :: u => if c = 58 then opened u else .fails

def opening : DecodeStep → List UInt8 → Opening
  | .key, t =>
      match skip t with
      | [] => .fails
      | c :: u =>
          if c = 39 ∨ c = 34 then
            match u.dropWhile fun b => decide (b ≠ c) with
            | [] => .fails
            | _ :: v => behindKey (u.takeWhile fun b => decide (b ≠ c)) v
          else if c = 125 then .closes (c :: u)
          else .fails
  | _, t => opened t

/-- A value from its first byte on, one round of parse_object, or all its rounds. -/
inductive Form where
  | value
  | round (decode_step : DecodeStep)
  | rounds (decode_step : DecodeStep) (symbol : UInt8)

/-- The parser takes a form from the first text and leaves the second. -/
inductive Takes : Form → List UInt8 → List UInt8 → Prop
  | object {c : UInt8} {t rest : List UInt8} (kind : start (c :: t) = .object)
      (members : Takes (.rounds .key 125) t rest) : Takes .value (c :: t) rest
  | array {c : UInt8} {t rest : List UInt8} (kind : start (c :: t) = .array)
      (elements : Takes (.rounds .type 93) t rest) : Takes .value (c :: t) rest
  | scalar {t rest : List UInt8} (ends : scalarEnd t = some rest) : Takes .value t rest
  | opens {decode_step : DecodeStep} {t u rest : List UInt8}
      (opens : opening decode_step t = .value u) (value : Takes .value u rest) :
      Takes (.round decode_step) t rest
  | closes {decode_step : DecodeStep} {t rest : List UInt8}
      (closes : opening decode_step t = .closes rest) : Takes (.round decode_step) t rest
  | last {decode_step : DecodeStep} {symbol : UInt8} {t u rest : List UInt8}
      (round : Takes (.round decode_step) t u) (space : skip u = symbol :: rest) :
      Takes (.rounds decode_step symbol) t rest
  | more {decode_step : DecodeStep} {symbol : UInt8} {t u v rest : List UInt8}
      (round : Takes (.round decode_step) t u) (space : skip u = 44 :: v)
      (rounds : Takes (.rounds decode_step symbol) v rest) :
      Takes (.rounds decode_step symbol) t rest

theorem skip_length (t : List UInt8) : (skip t).length ≤ t.length :=
  (List.dropWhile_suffix isBlank).length_le

theorem closing_length {quote before : UInt8} {t rest : List UInt8}
    (h : closing quote before t = some rest) : rest.length < t.length := by
  induction t generalizing before with
  | nil => cases h
  | cons c t ih =>
      rw [closing] at h
      split at h
      · obtain rfl := Option.some.inj h
        exact Nat.lt_succ_self _
      · exact Nat.lt_succ_of_lt (ih h)

theorem scalarEnd_length {t rest : List UInt8} (h : scalarEnd t = some rest) :
    rest.length ≤ t.length := by
  unfold scalarEnd at h
  split at h
  · cases h
  · cases h
  · split at h
    · cases h
    unfold ahead at h
    split at h
    · cases h
    · obtain rfl := Option.some.inj h
      exact (List.dropWhile_suffix isNumeric).length_le
  · obtain ⟨quote, -, closes⟩ := Option.bind_eq_some_iff.mp h
    have shorter := closing_length closes
    rw [List.length_tail] at shorter
    omega
  · dsimp only at h
    split at h
    · obtain rfl := Option.some.inj h
      exact (skip_length _).trans (List.drop_suffix _ _).length_le
    · cases h
  · split at h
    · cases h
    · obtain rfl := Option.some.inj h
      exact Nat.le_refl _

theorem opened_length {t u : List UInt8} (h : opened t = .value u) : u.length ≤ t.length := by
  unfold opened at h
  split at h
  · cases h
  · obtain rfl := Opening.value.inj h
    exact skip_length t

theorem behindKey_length {key t u : List UInt8} (h : behindKey key t = .value u) :
    u.length ≤ t.length := by
  unfold behindKey at h
  split at h
  · exact opened_length h
  have skipped := skip_length t
  split at h
  · cases h
  · case h_2 c v space =>
      rw [space, List.length_cons] at skipped
      split at h
      · have later := opened_length h
        omega
      · cases h

theorem opened_ne_closes (t u : List UInt8) : opened t ≠ .closes u := by
  unfold opened
  split
  · intro same
    cases same
  · intro same
    cases same

theorem behindKey_ne_closes (key t u : List UInt8) : behindKey key t ≠ .closes u := by
  unfold behindKey
  split
  · exact opened_ne_closes t u
  split
  · intro same
    cases same
  split
  · exact opened_ne_closes _ u
  · intro same
    cases same

theorem opening_length {decode_step : DecodeStep} {t u : List UInt8}
    (h : opening decode_step t = .value u) : u.length ≤ t.length := by
  cases decode_step with
  | type | value | end_ => exact opened_length h
  | key =>
      have skipped := skip_length t
      rw [opening] at h
      cases space : skip t with
      | nil =>
          rw [space] at h
          cases h
      | cons c v =>
          rw [space] at h skipped
          dsimp only at h
          split at h
          · have found := (List.dropWhile_suffix (l := v) fun b => decide (b ≠ c)).length_le
            split at h
            · cases h
            · case h_2 d w left =>
                rw [left, List.length_cons] at found
                rw [List.length_cons] at skipped
                have later := behindKey_length h
                omega
          · split at h
            · cases h
            · cases h

theorem opening_closes {decode_step : DecodeStep} {t u : List UInt8}
    (h : opening decode_step t = .closes u) : u.length ≤ t.length := by
  cases decode_step with
  | type | value | end_ => exact absurd h (opened_ne_closes t u)
  | key =>
      have skipped := skip_length t
      rw [opening] at h
      cases space : skip t with
      | nil =>
          rw [space] at h
          cases h
      | cons c v =>
          rw [space] at h skipped
          dsimp only at h
          split at h
          · split at h
            · cases h
            · exact absurd h (behindKey_ne_closes _ _ u)
          · split at h
            · obtain rfl := Opening.closes.inj h
              exact skipped
            · cases h

theorem Takes.length_le {form : Form} {t rest : List UInt8} (h : Takes form t rest) :
    rest.length ≤ t.length := by
  induction h with
  | object _ _ ih | array _ _ ih => exact Nat.le_succ_of_le ih
  | scalar ends => exact scalarEnd_length ends
  | opens opens _ ih => exact ih.trans (opening_length opens)
  | closes closes => exact opening_closes closes
  | @last decode_step symbol t u rest _ space ih =>
      have skipped := skip_length u
      rw [space, List.length_cons] at skipped
      omega
  | @more decode_step symbol t u v rest _ space _ ih later =>
      have skipped := skip_length u
      rw [space, List.length_cons] at skipped
      omega

end Grammar

section Cursor

/-- What is left of the text at the cursor. -/
def At (data : List UInt8) (pos : Nat) (t : List UInt8) : Prop :=
  ∃ p, data = p ++ t ∧ p.length = pos

variable {data t : List UInt8} {pos : Nat}

theorem At.append {a : List UInt8} (h : At data pos (a ++ t)) : At data (pos + a.length) t := by
  obtain ⟨p, rfl, rfl⟩ := h
  exact ⟨p ++ a, (List.append_assoc p a t).symm, List.length_append⟩

theorem At.cons {c : UInt8} (h : At data pos (c :: t)) : At data (pos + 1) t :=
  At.append (a := [c]) h

theorem At.length (h : At data pos t) : data.length = pos + t.length := by
  obtain ⟨p, rfl, rfl⟩ := h
  exact List.length_append

theorem At.drop (h : At data pos t) : data.drop pos = t := by
  obtain ⟨p, rfl, rfl⟩ := h
  exact List.drop_left

theorem At.unique {u : List UInt8} (h : At data pos t) (k : At data pos u) : t = u :=
  h.drop.symm.trans k.drop

theorem ok_andThen {ε α β : Type*} (a : α) (p : Nat) (stop : α → β)
    (next : α → Nat → Decoded ε β) :
    (⟨.ok, a, p, []⟩ : Decoded ε α).andThen stop next = next a p := rfl

theorem failed_andThen {ε α β : Type*} (a : α) (p : Nat) (stop : α → β)
    (next : α → Nat → Decoded ε β) :
    (⟨.failed, a, p, []⟩ : Decoded ε α).andThen stop next = ⟨.failed, stop a, p, []⟩ := rfl

theorem readAt_at {c : UInt8} (small : data.length ≤ limit) (h : At data pos (c :: t)) :
    readAt data pos = ⟨.ok, c, pos, []⟩ := by
  have size := h.length
  rw [List.length_cons] at size
  obtain ⟨p, split, here⟩ := h
  have found : at_ data (toInt32 pos) = some c := by
    rw [toInt32_small (by omega), at_, if_pos (Int.natCast_nonneg _), split, ← here]
    simp
  rw [readAt, read, found]

theorem scan_at {skips : UInt8 → Bool} (small : data.length ≤ limit) (h : At data pos t) :
    scan skips data (data.length - pos) pos =
      ⟨if t.dropWhile skips = [] then .failed else .ok, (), pos + (t.takeWhile skips).length, []⟩ := by
  have left : data.length - pos = t.length := by
    have size := h.length
    omega
  rw [left]
  induction t generalizing pos with
  | nil => rfl
  | cons c t ih =>
      rw [List.length_cons, scan, readAt_at small h, ok_andThen]
      by_cases skipped : skips c = true
      · rw [if_pos skipped, ih h.cons (by have size := h.cons.length; omega),
          List.dropWhile_cons_of_pos skipped, List.takeWhile_cons_of_pos skipped, List.length_cons,
          Nat.add_right_comm, Nat.add_assoc]
      · rw [if_neg skipped, List.dropWhile_cons_of_neg skipped, List.takeWhile_cons_of_neg skipped,
          if_neg (List.cons_ne_nil c t)]
        rfl

theorem At.dropWhile (skips : UInt8 → Bool) (h : At data pos t) :
    At data (pos + (t.takeWhile skips).length) (t.dropWhile skips) := by
  rw [← List.takeWhile_append_dropWhile (p := skips) (l := t)] at h
  exact h.append

/-- SKIP_SPACE stops at the next byte that is no blank, or fails. -/
theorem skipSpace_at {u : List UInt8} {c : UInt8} (small : data.length ≤ limit) (h : At data pos t)
    (space : skip t = c :: u) :
    ∃ p, At data p (c :: u) ∧ skipSpace data pos = ⟨.ok, (), p, []⟩ := by
  have there := h.dropWhile isBlank
  unfold skip at space
  rw [space] at there
  refine ⟨_, there, ?_⟩
  rw [skipSpace, scan_at small h, if_neg (space ▸ List.cons_ne_nil c u)]

theorem skipSpace_end (small : data.length ≤ limit) (h : At data pos t) (space : skip t = []) :
    skipSpace data pos = ⟨.failed, (), pos + (t.takeWhile isBlank).length, []⟩ := by
  unfold skip at space
  rw [skipSpace, scan_at small h, if_pos space]

theorem takeWhile_other {quote : UInt8} {a t : List UInt8} (plain : quote ∉ a) :
    (a ++ quote :: t).takeWhile (fun c => decide (c ≠ quote)) = a ∧
      (a ++ quote :: t).dropWhile (fun c => decide (c ≠ quote)) = quote :: t := by
  have all : ∀ c ∈ a, decide (c ≠ quote) = true := fun c hc =>
    decide_eq_true fun same => plain (same ▸ hc)
  rw [List.takeWhile_append_of_pos all, List.dropWhile_append_of_pos all,
    List.takeWhile_cons_of_neg (by simp), List.dropWhile_cons_of_neg (by simp)]
  exact ⟨List.append_nil a, rfl⟩

theorem find_at {quote : UInt8} {a : List UInt8} (small : data.length ≤ limit)
    (h : At data pos (a ++ quote :: t)) (plain : quote ∉ a) :
    find quote data pos = ⟨.ok, (), pos + a.length, []⟩ := by
  obtain ⟨taken, left⟩ := takeWhile_other (t := t) plain
  rw [find, scan_at small h, taken, left, if_neg (List.cons_ne_nil quote t)]

theorem find_end {quote : UInt8} (small : data.length ≤ limit) (h : At data pos t)
    (none_ : quote ∉ t) : ∃ p, find quote data pos = ⟨.failed, (), p, []⟩ := by
  have left : t.dropWhile (fun c => decide (c ≠ quote)) = [] :=
    List.dropWhile_eq_nil_iff.mpr fun c hc => decide_eq_true fun same => none_ (same ▸ hc)
  exact ⟨_, by rw [find, scan_at small h, if_pos left]⟩

theorem closing_append {quote b : UInt8} {a : List UInt8} (plain : quote ∉ a)
    (t : List UInt8) :
    closing quote b (a ++ quote :: t) =
      if (b :: a).getLast (List.cons_ne_nil b a) ≠ 92 then some t else closing quote quote t := by
  induction a generalizing b with
  | nil =>
      rw [List.nil_append, closing, List.getLast_singleton]
      by_cases escaped : b = 92
      · simp [escaped]
      · simp [escaped]
  | cons c a ih =>
      obtain ⟨other, later⟩ := List.ne_and_not_mem_of_not_mem_cons plain
      rw [List.cons_append, closing, if_neg fun same => other same.1.symm, ih later,
        List.getLast_cons (List.cons_ne_nil c a)]

theorem closing_none {quote b : UInt8} {t : List UInt8} (none_ : quote ∉ t) :
    closing quote b t = none := by
  induction t generalizing b with
  | nil => rfl
  | cons c t ih =>
      obtain ⟨other, later⟩ := List.ne_and_not_mem_of_not_mem_cons none_
      rw [closing, if_neg fun same => other same.1.symm, ih later]

/-- The loop of parse_string finds the closing quote, or fails. -/
theorem findClosing_at {quote : UInt8} (small : data.length ≤ limit)
    {p : List UInt8} {b : UInt8} (split : data = p ++ b :: t) (there : p.length + 1 = pos)
    {fuel : Nat} (deep : t.length < fuel) :
    (∃ stop rest, At data (stop + 1) rest ∧ closing quote b t = some rest ∧
        findClosing quote data fuel pos = ⟨.ok, (), stop, []⟩) ∨
      closing quote b t = none ∧
        ∃ stop, findClosing quote data fuel pos = ⟨.failed, (), stop, []⟩ := by
  induction fuel generalizing p b t pos with
  | zero => exact absurd deep (Nat.not_lt_zero _)
  | succ fuel ih =>
      have here : At data pos t := ⟨p ++ [b], by simp [split], by simp [there]⟩
      rw [findClosing]
      by_cases inside : quote ∈ t
      · obtain ⟨a, u, rfl, first⟩ := List.eq_append_cons_of_mem inside
        have stop : At data (pos + a.length) (quote :: u) := here.append
        have parts : b :: (a ++ quote :: u) =
            (b :: a).dropLast ++ (b :: a).getLast (List.cons_ne_nil b a) :: quote :: u :=
          calc b :: (a ++ quote :: u)
              _ = ((b :: a).dropLast ++ [(b :: a).getLast (List.cons_ne_nil b a)]) ++ quote :: u := by
                rw [List.dropLast_append_getLast]
                rfl
              _ = _ := List.append_assoc _ _ _
        have before_ : data = (p ++ (b :: a).dropLast) ++
            (b :: a).getLast (List.cons_ne_nil b a) :: (quote :: u) := by
          rw [split, parts, List.append_assoc]
        have near : (p ++ (b :: a).dropLast).length + 1 = pos + a.length := by
          rw [List.length_append, List.length_dropLast, List.length_cons]
          omega
        have size := stop.length
        rw [List.length_cons] at size
        rw [find_at small here first, ok_andThen, read_before before_ near (by omega), ok_andThen,
          closing_append first]
        by_cases escaped : (b :: a).getLast (List.cons_ne_nil b a) = 92
        · rw [if_neg (by simpa using escaped), if_neg (by simpa using escaped)]
          rw [List.length_append, List.length_cons] at deep
          obtain ⟨p', split', there'⟩ := stop
          exact ih split' (by rw [there']) (by omega)
        · rw [if_pos escaped, if_pos escaped]
          exact .inl ⟨_, u, stop.cons, rfl, rfl⟩
      · obtain ⟨q, failed⟩ := find_end small here inside
        rw [failed, failed_andThen, closing_none inside]
        exact .inr ⟨rfl, q, rfl⟩

end Cursor

section Values

variable {data t : List UInt8} {pos : Nat}

/-- The call returns true and leaves this text. -/
def Taken {α : Type} (data : List UInt8) (x : Decoded Event α) (rest : List UInt8) : Prop :=
  x.status = .ok ∧ At data x.pos rest

theorem taken_at {α : Type} {a : α} {events : List Event} {u rest : List UInt8}
    (h : At data pos u) : Taken data (⟨.ok, a, pos, events⟩ : Decoded Event α) rest ↔ u = rest :=
  ⟨fun taken => h.unique taken.2, fun same => ⟨rfl, same ▸ h⟩⟩

theorem not_taken {α : Type} {x : Decoded Event α} {rest : List UInt8} (h : x.status ≠ .ok) :
    ¬ Taken data x rest := fun taken => h taken.1

theorem startsNumber_at {c : UInt8} (small : data.length ≤ limit) (h : At data pos (c :: t))
    (more : c :: t ≠ [45]) :
    startsNumber data c pos = ⟨.ok, isDigit c || (c = 45 && t.head?.any isDigit), pos, []⟩ := by
  rw [startsNumber]
  by_cases digit : isDigit c = true
  · simp [digit]
  · rw [if_neg digit]
    by_cases minus : c = 45
    · subst minus
      cases t with
      | nil => exact absurd rfl more
      | cons d t =>
          have next := h.cons.length
          rw [List.length_cons] at next
          have index : toInt32 pos + 1 = ((pos + 1 : Nat) : Int) := by
            rw [toInt32_small (by omega)]
            rfl
          obtain ⟨p, split, there⟩ := h.cons
          have found : at_ data (toInt32 pos + 1) = some d := by
            rw [index, at_, if_pos (Int.natCast_nonneg _), Int.toNat_natCast, ← there, split]
            simp
          rw [if_pos rfl, read, found]
          simp [Decoded.map, digit]
    · simp [digit, minus]

/-- A minus at the very end is followed by a read outside the text. -/
theorem startsNumber_cut (small : data.length ≤ limit) (h : At data pos [45]) :
    (startsNumber data 45 pos).status = .threw := by
  have size : data.length = pos + 1 := h.length
  have none_ : at_ data (toInt32 pos + 1) = none := by
    rw [toInt32_small (by omega), at_, if_pos (by omega)]
    exact List.getElem?_eq_none (by omega)
  rw [startsNumber, if_neg (by decide), if_pos rfl, read, none_]
  rfl

/-- How many bytes the look-aheads for the symbols compare. -/
def tried (t : List UInt8) : List (NodeType × List UInt8) → List Nat
  | [] => []
  | symbol :: others =>
      symbol.2.length :: if symbol.2.isPrefixOf t then [] else tried t others

theorem decodeSymbol_at (h : At data pos t) (node : Node)
    (next : Node → Nat → Decoded Event Node) (others : List (NodeType × List UInt8)) :
    decodeSymbol node data pos next others =
      (match others.find? fun s : NodeType × List UInt8 => s.2.isPrefixOf t with
        | some (type, symbol) => parseSymbol node data pos type symbol
        | none => next node pos).after ((tried t others).map (.peek pos)) := by
  induction others with
  | nil => rfl
  | cons symbol others ih =>
      obtain ⟨type, text⟩ := symbol
      rw [decodeSymbol, h.drop, tried]
      by_cases here : text.isPrefixOf t = true
      · have first : ((type, text) :: others).find? (fun s => s.2.isPrefixOf t) =
            some (type, text) := List.find?_cons_of_pos here
        rw [if_pos here, if_pos here, first]
        rfl
      · have later : ((type, text) :: others).find? (fun s => s.2.isPrefixOf t) =
            others.find? fun s => s.2.isPrefixOf t := List.find?_cons_of_neg here
        rw [if_neg here, if_neg here, later, ih]
        rfl

/-- What decode does with a value is a matter of what the text begins as. -/
theorem decodeText_at {c : UInt8} (small : data.length ≤ limit) (h : At data pos (c :: t))
    (more : c :: t ≠ [45]) (node : Node) (next : Node → Nat → Decoded Event Node) :
    decodeText node data pos next =
      match start (c :: t) with
      | .object => next { node with type := .object, decode_step := .value } (pos + 1)
      | .array => next { node with type := .array, decode_step := .value } (pos + 1)
      | .number => parseNumber node data pos
      | .string => parseString node data pos
      | .symbol type symbol =>
          (parseSymbol node data pos type symbol).after ((tried (c :: t) symbols).map (.peek pos))
      | .missing => (next node pos).after ((tried (c :: t) symbols).map (.peek pos)) := by
  rw [decodeText, readAt_at small h, ok_andThen, start]
  by_cases brace : c = 123
  · rw [if_pos brace, if_pos brace]
  by_cases bracket : c = 91
  · rw [if_neg brace, if_neg brace, if_pos bracket, if_pos bracket]
  rw [if_neg brace, if_neg brace, if_neg bracket, if_neg bracket, startsNumber_at small h more,
    ok_andThen]
  by_cases number : (isDigit c || (c = 45 && t.head?.any isDigit)) = true
  · rw [if_pos number, if_pos number]
  by_cases quote : c = 34 ∨ c = 39
  · rw [if_neg number, if_neg number, if_pos quote, if_pos quote]
  rw [if_neg number, if_neg number, if_neg quote, if_neg quote, decodeSymbol_at h]
  cases symbols.find? (fun symbol => symbol.2.isPrefixOf (c :: t)) with
  | none | some symbol => rfl

theorem decodeText_cut (small : data.length ≤ limit) (h : At data pos [45]) (node : Node)
    (next : Node → Nat → Decoded Event Node) : (decodeText node data pos next).status = .threw := by
  have cut := startsNumber_cut small h
  have stopped : (startsNumber data 45 pos).status ≠ .ok := by
    rw [cut]
    decide
  rw [decodeText, readAt_at small h, ok_andThen, if_neg (by decide), if_neg (by decide),
    Decoded.andThen_stopped stopped, cut]

/-- The call returns true where the second text is left, or returns false. -/
inductive Ends {α : Type} (data : List UInt8) (events : List Event) :
    Decoded Event α → Option (List UInt8) → Prop
  | ok (value : α) {stop : Nat} {rest : List UInt8} (left : At data stop rest) :
      Ends data events ⟨.ok, value, stop, events⟩ (some rest)
  | failed (value : α) (stop : Nat) : Ends data events ⟨.failed, value, stop, events⟩ none

theorem Ends.after {α : Type} {x : Decoded Event α} {result : Option (List UInt8)}
    (h : Ends data [] x result) (events : List Event) : Ends data events (x.after events) result := by
  have same : events ++ [] = events := List.append_nil events
  cases h with
  | ok value left =>
      rw [Decoded.after, same]
      exact .ok value left
  | failed value stop =>
      rw [Decoded.after, same]
      exact .failed value stop

theorem parseNumber_at {c : UInt8} (small : data.length ≤ limit) (h : At data pos (c :: t))
    (numeric : isNumeric c = true) (node : Node) :
    Ends data [] (parseNumber node data pos)
      (if malformed ((c :: t).takeWhile isNumeric) then none
        else ahead ((c :: t).dropWhile isNumeric)) := by
  have behind := h.cons.dropWhile isNumeric
  have value : slice data pos (pos + 1 + (t.takeWhile isNumeric).length) =
      (c :: t).takeWhile isNumeric := by
    obtain ⟨p, split, here⟩ := h
    have parts : data = p ++ ((c :: t).takeWhile isNumeric ++ (c :: t).dropWhile isNumeric) := by
      rw [List.takeWhile_append_dropWhile, split]
    have stop : pos + 1 + (t.takeWhile isNumeric).length =
        pos + ((c :: t).takeWhile isNumeric).length := by
      rw [List.takeWhile_cons_of_pos numeric, List.length_cons]
      omega
    rw [stop]
    exact slice_eq parts here
  rw [parseNumber, skipNumber, scan_at small h.cons, List.dropWhile_cons_of_pos numeric]
  by_cases last : t.dropWhile isNumeric = []
  · rw [if_pos last, failed_andThen, last]
    have none_ : ahead [] = none := rfl
    rw [none_, ite_self]
    exact .failed _ _
  · have some_ : ahead (t.dropWhile isNumeric) = some (t.dropWhile isNumeric) := if_neg last
    rw [if_neg last, ok_andThen, value, some_]
    dsimp only
    split
    · exact .failed _ _
    · exact .ok _ behind

theorem parseString_at {quote : UInt8} (small : data.length ≤ limit)
    (h : At data pos (quote :: t)) (node : Node) :
    Ends data [] (parseString node data pos) (closing quote quote t) := by
  have size := h.length
  rw [List.length_cons] at size
  obtain ⟨p, split, here⟩ := h
  rw [parseString, readAt_at small ⟨p, split, here⟩, ok_andThen]
  rcases findClosing_at small split (by rw [here]) (show t.length < data.length + 1 by omega) with
    ⟨stop, rest, left, closes, found⟩ | ⟨none_, stop, lost⟩
  · rw [found, ok_andThen, closes]
    exact .ok _ left
  · rw [lost, failed_andThen, none_]
    exact .failed _ _

theorem parseSymbol_at {symbol : List UInt8} (small : data.length ≤ limit) (h : At data pos t)
    (inside : symbol <+: t) (node : Node) (type : NodeType) :
    Ends data [] (parseSymbol node data pos type symbol)
      (if (skip (t.drop symbol.length)).head? = some 44 ∨
          (skip (t.drop symbol.length)).head? = some 125
        then some (skip (t.drop symbol.length)) else none) := by
  obtain ⟨u, rfl⟩ := inside
  have behind := h.append
  rw [List.drop_left, parseSymbol]
  cases space : skip u with
  | nil =>
      rw [skipSpace_end small behind space, failed_andThen]
      exact .failed _ _
  | cons c v =>
      obtain ⟨q, left, found⟩ := skipSpace_at small behind space
      rw [found, ok_andThen, readAt_at small left, ok_andThen]
      by_cases follows : c = 44 ∨ c = 125
      · rw [if_neg (fun other => follows.elim other.1 other.2), if_pos (by simpa using follows)]
        exact .ok _ left
      · rw [if_pos (not_or.mp follows), if_neg (by simpa using follows)]
        exact .failed _ _

/-- The sizes of the look-aheads at a value. -/
def lookahead (t : List UInt8) : List Nat :=
  match start t with
  | .symbol _ _ | .missing => tried t symbols
  | _ => []

theorem start_number {c : UInt8} (kind : start (c :: t) = .number) : isNumeric c = true := by
  rw [start] at kind
  split at kind
  · cases kind
  split at kind
  · cases kind
  split at kind
  · case isTrue number =>
      simp only [Bool.or_eq_true, Bool.and_eq_true, decide_eq_true_eq] at number
      rcases number with digit | ⟨rfl, -⟩
      · exact isNumeric_of_isDigit digit
      · rfl
  split at kind
  · cases kind
  cases found : symbols.find? (fun symbol => symbol.2.isPrefixOf (c :: t)) with
  | none | some symbol =>
      rw [found] at kind
      cases kind

theorem start_symbol {type : NodeType} {symbol : List UInt8} (kind : start t = .symbol type symbol) :
    symbol <+: t := by
  cases t with
  | nil => cases kind
  | cons c t =>
      rw [start] at kind
      split at kind
      · cases kind
      split at kind
      · cases kind
      split at kind
      · cases kind
      split at kind
      · cases kind
      cases found : symbols.find? (fun symbol => symbol.2.isPrefixOf (c :: t)) with
      | none =>
          rw [found] at kind
          cases kind
      | some first =>
          rw [found] at kind
          have here := List.find?_some (p := fun s : NodeType × List UInt8 => s.2.isPrefixOf (c :: t)) found
          obtain ⟨rfl, rfl⟩ := Start.symbol.inj kind
          exact List.isPrefixOf_iff_prefix.mp here

theorem decodeValue_type {node : Node} (step : node.decode_step = .type)
    (parse_object : Node → Nat → DecodeStep → UInt8 → Decoded Event Node) :
    decodeValue parse_object node pos = ⟨.ok, node, pos, []⟩ := by
  have other : node.decode_step ≠ .value := by
    rw [step]
    decide
  rw [decodeValue, if_neg fun same => other same.1, if_neg fun same => other same.1]

theorem decodeValue_object (node : Node)
    (parse_object : Node → Nat → DecodeStep → UInt8 → Decoded Event Node) :
    decodeValue parse_object { node with type := .object, decode_step := .value } pos =
      parse_object { node with type := .object, decode_step := .value } pos .key 125 :=
  if_pos ⟨rfl, rfl⟩

theorem decodeValue_array (node : Node)
    (parse_object : Node → Nat → DecodeStep → UInt8 → Decoded Event Node) :
    decodeValue parse_object { node with type := .array, decode_step := .value } pos =
      parse_object { node with type := .array, decode_step := .value } pos .type 93 := by
  have other : NodeType.array ≠ .object := by decide
  rw [decodeValue, if_neg fun same => other same.2, if_pos ⟨rfl, rfl⟩]

/-- A value that is neither object nor array ends where the grammar says. -/
theorem scalar_at {c : UInt8} (small : data.length ≤ limit) (h : At data pos (c :: t))
    (more : c :: t ≠ [45]) (noObject : start (c :: t) ≠ .object) (noArray : start (c :: t) ≠ .array)
    {node : Node} (step : node.decode_step = .type) (fuel : Nat) :
    Ends data ((lookahead (c :: t)).map (.peek pos))
      (decodeText node data pos (decodeValue (parseObject data fuel))) (scalarEnd (c :: t)) := by
  rw [decodeText_at small h more, scalarEnd, lookahead]
  cases kind : start (c :: t) with
  | object => exact absurd kind noObject
  | array => exact absurd kind noArray
  | number => exact parseNumber_at small h (start_number kind) node
  | string => exact parseString_at small h node
  | symbol type symbol => exact (parseSymbol_at small h (start_symbol kind) node type).after _
  | missing =>
      dsimp only
      rw [decodeValue_type step, if_neg more]
      exact (Ends.ok node h).after _

end Values

section Openings

variable {data t : List UInt8} {pos : Nat}
  (parse_object : Node → Nat → DecodeStep → UInt8 → Decoded Event Node)

/-- decode fails before a value, ends at a brace, or comes to the value. -/
inductive Opens (data : List UInt8) : Decoded Event Node → Opening → Prop
  | fails (node : Node) (stop : Nat) : Opens data ⟨.failed, node, stop, []⟩ .fails
  | closes (node : Node) {stop : Nat} {rest : List UInt8} (left : At data stop rest) :
      Opens data ⟨.ok, node, stop, []⟩ (.closes rest)
  | value {node : Node} {start : Nat} {c : UInt8} {u : List UInt8} (step : node.decode_step = .type)
      (left : At data start (c :: u)) :
      Opens data (decodeText node data start (decodeValue parse_object)) (.value (c :: u))

theorem opened_at (small : data.length ≤ limit) (h : At data pos t) {node : Node}
    (step : node.decode_step = .type) :
    Opens parse_object data ((skipSpace data pos).andThen (fun _ => node) fun _ cost_len =>
      decodeText node data cost_len (decodeValue parse_object)) (opened t) := by
  unfold opened
  cases space : skip t with
  | nil =>
      rw [skipSpace_end small h space, failed_andThen, if_pos rfl]
      exact .fails _ _
  | cons c u =>
      obtain ⟨p, left, found⟩ := skipSpace_at small h space
      rw [found, ok_andThen, if_neg (List.cons_ne_nil c u)]
      exact .value step left

theorem behindKey_at (small : data.length ≤ limit) (h : At data pos t) {node : Node}
    (step : node.decode_step = .type) :
    Opens parse_object data (decodeType node data pos (decodeValue parse_object)) (behindKey node.key t) := by
  rw [decodeType, if_pos step, behindKey]
  cases space : skip t with
  | nil =>
      have none_ : opened t = .fails := if_pos space
      rw [skipSpace_end small h space, failed_andThen, none_, ite_self]
      exact .fails _ _
  | cons c u =>
      obtain ⟨p, left, found⟩ := skipSpace_at small h space
      rw [found, ok_andThen, decodeColon]
      by_cases named : node.key = []
      · rw [if_pos named, if_pos named, ok_andThen, opened, space, if_neg (List.cons_ne_nil c u)]
        exact .value step left
      · rw [if_neg named, if_neg named, readAt_at small left, ok_andThen]
        by_cases colon : c = 58
        · simp only [colon, if_true]
          exact opened_at parse_object small left.cons step
        · simp only [colon, if_false]
          exact .fails node (p + 1)

/-- How a round begins is a matter of the text that is left. -/
theorem opening_at (small : data.length ≤ limit) (h : At data pos t) {decode_step : DecodeStep}
    (round : decode_step = .key ∨ decode_step = .type) :
    Opens parse_object data (decodeWith parse_object { decode_step := decode_step } data pos)
      (opening decode_step t) := by
  rcases round with rfl | rfl
  · rw [decodeWith, decodeKey, if_pos rfl, opening]
    cases space : skip t with
    | nil =>
        rw [skipSpace_end small h space, failed_andThen]
        exact .fails _ _
    | cons c u =>
        obtain ⟨p, left, found⟩ := skipSpace_at small h space
        rw [found, ok_andThen, readAt_at small left, ok_andThen]
        dsimp only
        by_cases quote : c = 39 ∨ c = 34
        · rw [if_pos quote, if_pos quote]
          by_cases inside : c ∈ u
          · obtain ⟨key, v, rfl, plain⟩ := List.eq_append_cons_of_mem inside
            obtain ⟨taken, behind⟩ := takeWhile_other (t := v) plain
            have there : At data (p + 1 + key.length + 1) v := left.cons.append.cons
            have name : slice data (p + 1) (p + 1 + key.length) = key := by
              obtain ⟨front, split, here⟩ := left.cons
              exact slice_eq split here
            rw [find_at small left.cons plain, ok_andThen, name, taken, behind]
            exact behindKey_at parse_object small there rfl
          · have none_ : u.dropWhile (fun b => decide (b ≠ c)) = [] :=
              List.dropWhile_eq_nil_iff.mpr fun b hb => decide_eq_true fun same => inside (same ▸ hb)
            obtain ⟨q, failed⟩ := find_end small left.cons inside
            rw [failed, failed_andThen, none_]
            exact .fails _ _
        · rw [if_neg quote, if_neg quote]
          by_cases brace : c = 125
          · rw [if_pos brace, if_pos brace]
            exact .closes _ left
          · rw [if_neg brace, if_neg brace]
            exact .fails _ _
  · have opens : Opens parse_object data
        (decodeType { decode_step := .type } data pos (decodeValue parse_object)) _ :=
      behindKey_at parse_object small h rfl
    rw [behindKey, if_pos rfl] at opens
    have other : DecodeStep.type ≠ .key := by decide
    rw [decodeWith, decodeKey, if_neg other]
    exact opens

end Openings

section Rounds

variable {data t : List UInt8} {pos : Nat}

/-- The call returns true with what the relation allows left, and only then. -/
structure Follows (data : List UInt8) (x : Decoded Event Node) (left : List UInt8 → Prop) :
    Prop where
  inside : x.status = .ok → ∃ rest, At data x.pos rest
  taken : ∀ rest, Taken data x rest ↔ left rest

theorem Follows.of_stopped {x : Decoded Event Node} {left : List UInt8 → Prop}
    (stopped : x.status ≠ .ok) (none_ : ∀ rest, ¬ left rest) : Follows data x left :=
  ⟨fun ok => absurd ok stopped, fun rest => iff_of_false (not_taken stopped) (none_ rest)⟩

theorem Follows.of_failed {node : Node} {left : List UInt8 → Prop} {events : List Event}
    (none_ : ∀ rest, ¬ left rest) : Follows data ⟨.failed, node, pos, events⟩ left := by
  have other : Status.failed ≠ .ok := by decide
  exact .of_stopped other none_

theorem Follows.of_ok {node : Node} {left : List UInt8 → Prop} {u : List UInt8}
    {events : List Event} (h : At data pos u) (same : ∀ rest, left rest ↔ u = rest) :
    Follows data ⟨.ok, node, pos, events⟩ left :=
  ⟨fun _ => ⟨u, h⟩, fun rest => (taken_at h).trans (same rest).symm⟩

theorem Follows.congr {x : Decoded Event Node} {left left' : List UInt8 → Prop}
    (h : Follows data x left) (same : ∀ rest, left rest ↔ left' rest) : Follows data x left' :=
  ⟨h.inside, fun rest => (h.taken rest).trans (same rest)⟩

theorem Follows.andThen {x : Decoded Event Node} {stop : Node → Node}
    {next : Node → Nat → Decoded Event Node} {left : List UInt8 → Prop} (ok : x.status = .ok)
    (h : Follows data (next x.value x.pos) left) : Follows data (x.andThen stop next) left := by
  rw [Decoded.andThen, if_pos ok]
  exact ⟨h.inside, h.taken⟩

theorem Ends.follows {events : List Event} {x : Decoded Event Node} {result : Option (List UInt8)}
    (h : Ends data events x result) : Follows data x fun rest => result = some rest := by
  cases h with
  | ok value left => exact .of_ok left fun rest => Option.some_inj
  | failed value stop => exact .of_failed fun rest => (Option.some_ne_none rest).symm

theorem takes_object {c : UInt8} {rest : List UInt8} (kind : start (c :: t) = .object) :
    Takes .value (c :: t) rest ↔ Takes (.rounds .key 125) t rest := by
  refine ⟨fun h => ?_, .object kind⟩
  cases h with
  | object _ members => exact members
  | array other _ => cases kind.symm.trans other
  | scalar ends =>
      rw [scalarEnd, kind] at ends
      cases ends

theorem takes_array {c : UInt8} {rest : List UInt8} (kind : start (c :: t) = .array) :
    Takes .value (c :: t) rest ↔ Takes (.rounds .type 93) t rest := by
  refine ⟨fun h => ?_, .array kind⟩
  cases h with
  | object other _ => cases kind.symm.trans other
  | array _ elements => exact elements
  | scalar ends =>
      rw [scalarEnd, kind] at ends
      cases ends

theorem takes_scalar {rest : List UInt8} (noObject : start t ≠ .object)
    (noArray : start t ≠ .array) : Takes .value t rest ↔ scalarEnd t = some rest := by
  refine ⟨fun h => ?_, .scalar⟩
  cases h with
  | object kind _ => exact absurd kind noObject
  | array kind _ => exact absurd kind noArray
  | scalar ends => exact ends

theorem takes_last_or_more {decode_step : DecodeStep} {symbol : UInt8} {rest : List UInt8} :
    Takes (.rounds decode_step symbol) t rest ↔ ∃ u, Takes (.round decode_step) t u ∧
      (skip u = symbol :: rest ∨
        ∃ v, skip u = 44 :: v ∧ Takes (.rounds decode_step symbol) v rest) := by
  constructor
  · intro h
    cases h with
    | last round space => exact ⟨_, round, .inl space⟩
    | more round space rounds => exact ⟨_, round, .inr ⟨_, space, rounds⟩⟩
  · rintro ⟨u, round, space | ⟨v, space, rounds⟩⟩
    · exact .last round space
    · exact .more round space rounds

/-- parse_object follows the grammar on the texts that its fuel suffices for. -/
def RoundsFollow (data : List UInt8) (fuel : Nat) : Prop :=
  ∀ {decode_step : DecodeStep} {symbol : UInt8} {pos : Nat} {t : List UInt8} (node : Node),
    decode_step = .key ∨ decode_step = .type → symbol ≠ 44 → At data pos t → t.length < fuel →
      Follows data (parseObject data fuel node pos decode_step symbol)
        (Takes (.rounds decode_step symbol) t)

theorem value_follows {fuel : Nat} (small : data.length ≤ limit) (ih : RoundsFollow data fuel)
    {c : UInt8} (h : At data pos (c :: t)) (deep : t.length < fuel) {node : Node}
    (step : node.decode_step = .type) :
    Follows data (decodeText node data pos (decodeValue (parseObject data fuel)))
      (Takes .value (c :: t)) := by
  by_cases cut : c :: t = [45]
  · obtain ⟨rfl, rfl⟩ := List.cons.inj cut
    have threw := decodeText_cut small h node (decodeValue (parseObject data fuel))
    refine .of_stopped (by rw [threw]; decide) fun rest taken => ?_
    have ends := (takes_scalar (by decide) (by decide)).mp taken
    have none_ : scalarEnd [45] = none := rfl
    cases none_.symm.trans ends
  cases kind : start (c :: t) with
  | object =>
      have text := decodeText_at small h cut node (decodeValue (parseObject data fuel))
      rw [kind] at text
      dsimp only at text
      rw [decodeValue_object] at text
      rw [text]
      exact (ih _ (.inl rfl) (by decide) h.cons deep).congr fun rest => (takes_object kind).symm
  | array =>
      have text := decodeText_at small h cut node (decodeValue (parseObject data fuel))
      rw [kind] at text
      dsimp only at text
      rw [decodeValue_array] at text
      rw [text]
      exact (ih _ (.inr rfl) (by decide) h.cons deep).congr fun rest => (takes_array kind).symm
  | number | string | symbol _ _ | missing =>
      have noObject : start (c :: t) ≠ .object := by
        rw [kind]
        intro same
        cases same
      have noArray : start (c :: t) ≠ .array := by
        rw [kind]
        intro same
        cases same
      exact (scalar_at small h cut noObject noArray step fuel).follows.congr fun rest =>
        (takes_scalar noObject noArray).symm

theorem round_follows {fuel : Nat} (small : data.length ≤ limit) (ih : RoundsFollow data fuel)
    {decode_step : DecodeStep} (round : decode_step = .key ∨ decode_step = .type)
    (h : At data pos t) (deep : t.length ≤ fuel) :
    Follows data (decodeWith (parseObject data fuel) { decode_step := decode_step } data pos)
      (Takes (.round decode_step) t) := by
  have opens := opening_at (parseObject data fuel) small h round
  have form (rest : List UInt8) : Takes (.round decode_step) t rest ↔
      (∃ u, opening decode_step t = .value u ∧ Takes .value u rest) ∨
        opening decode_step t = .closes rest := by
    constructor
    · intro taken
      cases taken with
      | opens opens value => exact .inl ⟨_, opens, value⟩
      | closes closes => exact .inr closes
    · rintro (⟨u, opens, value⟩ | closes)
      · exact .opens opens value
      · exact .closes closes
  generalize result : opening decode_step t = begins at opens form
  generalize decodeWith (parseObject data fuel) { decode_step := decode_step } data pos = x at opens ⊢
  cases opens with
  | fails node stop =>
      refine .of_failed fun rest taken => ?_
      rcases (form rest).mp taken with ⟨u, none_, -⟩ | none_ <;> cases none_
  | closes node left =>
      refine .of_ok left fun rest => (form rest).trans ?_
      simp
  | @value node start c u step left =>
      have size := opening_length result
      rw [List.length_cons] at size
      exact (value_follows small ih left (by omega) step).congr fun rest => by simp [form]

theorem rounds_follow (small : data.length ≤ limit) (fuel : Nat) : RoundsFollow data fuel := by
  induction fuel with
  | zero => exact fun _ _ _ _ deep => absurd deep (Nat.not_lt_zero _)
  | succ fuel ih =>
      intro decode_step symbol pos t node round other h deep
      have first := round_follows small ih round h (Nat.le_of_lt_succ deep)
      rw [parseObject]
      generalize decodeWith (parseObject data fuel) { decode_step := decode_step } data pos = x
        at first ⊢
      by_cases ok : x.status = .ok
      · obtain ⟨u, left⟩ := first.inside ok
        have taken : Takes (.round decode_step) t u := (first.taken u).mp ⟨ok, left⟩
        have only {v : List UInt8} (h : Takes (.round decode_step) t v) : v = u :=
          ((first.taken v).mpr h).2.unique left
        have form (rest : List UInt8) : Takes (.rounds decode_step symbol) t rest ↔
            skip u = symbol :: rest ∨
              ∃ v, skip u = 44 :: v ∧ Takes (.rounds decode_step symbol) v rest := by
          rw [takes_last_or_more]
          constructor
          · rintro ⟨v, round, next⟩
            exact only round ▸ next
          · exact fun next => ⟨u, taken, next⟩
        have size := taken.length_le
        refine (Follows.andThen ok ?_).congr fun rest => (form rest).symm
        cases space : skip u with
        | nil =>
            rw [skipSpace_end small left space, failed_andThen]
            refine .of_failed fun rest next => ?_
            rcases next with none_ | ⟨v, none_, -⟩ <;> cases none_
        | cons c v =>
            obtain ⟨p, there, found⟩ := skipSpace_at small left space
            have skipped := skip_length u
            rw [space, List.length_cons] at skipped
            rw [found, ok_andThen, readAt_at small there, ok_andThen]
            dsimp only
            by_cases last : c = symbol
            · rw [if_pos last]
              refine .of_ok there.cons fun rest => ?_
              simp [last, other]
            · rw [if_neg last]
              by_cases comma : c = 44
              · rw [if_pos comma]
                refine (ih _ round other there.cons (by omega)).congr fun rest => ?_
                simp [comma, other.symm]
              · rw [if_neg comma]
                refine .of_failed fun rest next => ?_
                simp [last, comma] at next
      · refine .of_stopped ?_ fun rest rounds => ?_
        · rw [Decoded.andThen_stopped ok]
          exact ok
        · obtain ⟨u, round, -⟩ := takes_last_or_more.mp rounds
          exact ok ((first.taken u).mpr round).1

/-- json::decode returns true exactly for the texts that begin with a value of the grammar. -/
theorem accepts_iff {data : List UInt8} (small : data.length ≤ limit) :
    (jsonDecode data).status = .ok ↔ ∃ rest, Takes (.round .type) data rest := by
  have start : At data 0 data := ⟨[], rfl, rfl⟩
  have follows : Follows data (jsonDecode data) (Takes (.round .type) data) :=
    round_follows small (rounds_follow small _) (.inr rfl) start (Nat.le_succ _)
  constructor
  · intro ok
    obtain ⟨rest, left⟩ := follows.inside ok
    exact ⟨rest, (follows.taken rest).mp ⟨ok, left⟩⟩
  · rintro ⟨rest, taken⟩
    exact ((follows.taken rest).mpr taken).1

end Rounds

end HZRobot.Json
