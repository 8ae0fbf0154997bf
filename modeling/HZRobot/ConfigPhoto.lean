import HZRobot.Config
import HZRobot.JsonFields
import Mathlib.Data.List.Forall2

/-!
The photo matrix. loadphoto_config walks the rows of table_xx and the cells of each row
with temporaries that outlive a row, and puts the result under one key of a singleton.
The walk over the rows starts at the first child of any kind.
-/

namespace HZRobot.ConfigPhoto

open Config Json

abbrev Cell := StdMap (List UInt8) Int32

/-- The map m_tmp after its insert under CAMTYPE. -/
def cell (value : Int32) : Cell := StdMap.empty.emplace (bytes "camtype") value

/-- The inner loop: the count, and the row unless a missing text is used. -/
def photoCells : List XmlNode → Int32 → List Cell → Int32 × Option (List Cell)
  | [], tablenum, vm_tmp => (tablenum, some vm_tmp)
  | e :: es, tablenum, vm_tmp =>
      match getText e with
      | none => (tablenum, none)
      | some t => photoCells es (tablenum + 1) (vm_tmp ++ [cell (Int32.ofInt (atoi t))])

def photoTable : List XmlNode → Int32 → List (List Cell) → Int32 × Option (List (List Cell))
  | [], tablenum, vvm_tmp => (tablenum, some vvm_tmp)
  | node :: nodes, tablenum, vvm_tmp =>
      match photoCells (node.children.filter XmlNode.isElement) tablenum [] with
      | (tablenum, none) => (tablenum, none)
      | (tablenum, some vm_tmp) => photoTable nodes tablenum (vvm_tmp ++ [vm_tmp])

def loadphotoConfig (file : Option (List XmlNode)) (c : EaPhotoL2) : Load EaPhotoL2 :=
  match file with
  | none => .returned false c
  | some doc =>
      match photoTable (tableRows doc) 0 [] with
      | (tablenum, none) => .nullUse { c with tablenum := tablenum }
      | (tablenum, some vvm_tmp) =>
          .returned true
            { c with tablenum := tablenum, param := c.param.put (bytes "row") ⟨vvm_tmp⟩ }

/-- The load of the integers alone, seen through the maps and the counter of an int. -/
def toCell (i : Int) : Cell := cell (Int32.ofInt i)

theorem photoCells_eq (es : List XmlNode) (tablenum : Int) (row : List Int) :
    photoCells es (Int32.ofInt tablenum) (row.map toCell) =
      (Int32.ofInt (photoRow es tablenum row).1,
        (photoRow es tablenum row).2.map (List.map toCell)) := by
  induction es generalizing tablenum row with
  | nil => rfl
  | cons e es ih =>
      cases text : getText e with
      | none => simp only [photoCells, photoRow, text, Option.map_none]
      | some t =>
          have next := ih (tablenum + 1) (row ++ [atoi t])
          rw [Int32.ofInt_add, List.map_append] at next
          simp only [photoCells, photoRow, text, ← next]
          rfl

theorem photoTable_eq (nodes : List XmlNode) (tablenum : Int) (rows : List (List Int)) :
    photoTable nodes (Int32.ofInt tablenum) (rows.map (List.map toCell)) =
      (Int32.ofInt (photoRows nodes tablenum rows).1,
        (photoRows nodes tablenum rows).2.map (List.map (List.map toCell))) := by
  induction nodes generalizing tablenum rows with
  | nil => rfl
  | cons node nodes ih =>
      have row := photoCells_eq (node.children.filter XmlNode.isElement) tablenum []
      rw [List.map_nil] at row
      rw [photoTable, row, photoRows]
      cases h : photoRow (node.children.filter XmlNode.isElement) tablenum [] with
      | mk count row =>
          cases row with
          | none => rfl
          | some row =>
              have next := ih count (rows ++ [row])
              rw [List.map_append] at next
              exact next

theorem loadphotoConfig_isNull (file : Option (List XmlNode)) (c : EaPhotoL2) (d : PhotoConfig) :
    (loadphotoConfig file c).isNull = (Config.loadphotoConfig file d).isNull := by
  cases file with
  | none => rfl
  | some doc =>
      have walk : photoTable (tableRows doc) 0 [] = _ := photoTable_eq (tableRows doc) 0 []
      rw [loadphotoConfig, walk, Config.loadphotoConfig]
      cases h : photoRows (tableRows doc) 0 [] with
      | mk count rows =>
          cases rows with
          | none | some _ => rfl

/-- The same file loaded again and again, as long as a load returns true. -/
def loads (doc : List XmlNode) : Nat → EaPhotoL2 → Load EaPhotoL2
  | 0, c => .returned true c
  | n + 1, c =>
      match loadphotoConfig (some doc) c with
      | .returned true c => loads doc n c
      | stopped => stopped

def elements (node : XmlNode) : List XmlNode := node.children.filter XmlNode.isElement

/-- Digits behind at most one sign, with the number they are. -/
inductive IntegerText : List UInt8 → Int → Prop
  | unsigned {ds : List UInt8} (some_ : ds ≠ []) (digits : ∀ d ∈ ds, isDigit d = true) :
      IntegerText ds (digitsValue ds)
  | plus {ds : List UInt8} (some_ : ds ≠ []) (digits : ∀ d ∈ ds, isDigit d = true) :
      IntegerText (43 :: ds) (digitsValue ds)
  | minus {ds : List UInt8} (some_ : ds ≠ []) (digits : ∀ d ∈ ds, isDigit d = true) :
      IntegerText (45 :: ds) (-digitsValue ds)

/-- The cell's text is an integer, of any size. -/
def IntegerCell (e : XmlNode) (value : Int) : Prop := ∃ t, getText e = some t ∧ IntegerText t value

/-- An integer that an int holds. -/
def Fits (value : Int) : Prop := -2 ^ 31 ≤ value ∧ value < 2 ^ 31

def isTable (node : XmlNode) : Bool := decide (cstr node.value = bytes "table_xx")

/-- The first table_xx element below the root, and the integers of its rows. -/
structure PhotoFile (doc : List XmlNode) (table : XmlNode) (rows : List (List Int)) : Prop where
  first : (rootElement doc).bind (fun root =>
    root.children.find? fun c => c.isElement && isTable c) = some table
  cells : List.Forall₂ (fun row values => List.Forall₂ IntegerCell (elements row) values)
    (elements table) rows

def total {α : Type} (rows : List (List α)) : Nat := (rows.map List.length).sum

/-- The map of a cell with this integer. -/
def CellOf (value : Int) (m : Cell) : Prop := ∃ camtype : Int32, m = cell camtype ∧ camtype.toInt = value

/-- One entry for each row, with one map for each cell, and the number of the cells. -/
structure Mirrors (rows : List (List Int)) (c : EaPhotoL2) : Prop where
  row : ∃ entries, c.param.find? (bytes "row") = some ⟨entries⟩ ∧
    List.Forall₂ (List.Forall₂ CellOf) rows entries
  tablenum : c.tablenum.toInt = total rows

/-- The walk reaches the rows: no node of another kind is named table_xx before the
element, and no comment stands before the first row. -/
def Reached (doc : List XmlNode) (table : XmlNode) : Prop :=
  firstChild (rootElement doc) "table_xx" = some table ∧
    ∀ node ∈ table.children.head?, node.isElement = true

theorem leadingNumber_digits {ds : List UInt8} (digits : ∀ d ∈ ds, isDigit d = true) :
    leadingNumber ds = digitsValue ds := by
  rw [leadingNumber, List.takeWhile_eq_self_iff.mpr digits]

/-- What strtoll makes of an integer, which it stops at its bounds. -/
def clamp (value : Int) : Int := max (-2 ^ 63) (min (2 ^ 63 - 1) value)

/-- What a cell keeps of an integer. -/
def stored (value : Int) : Int32 := Int32.ofInt (toInt32 (clamp value))

theorem strtoll_integerText {t : List UInt8} {value : Int} (h : IntegerText t value) :
    strtoll t = clamp value := by
  unfold clamp
  cases h with
  | @unsigned _ some_ digits =>
      obtain ⟨d, ds, rfl⟩ := List.exists_cons_of_ne_nil some_
      have digit := digits d List.mem_cons_self
      have first : 48 ≤ d ∧ d ≤ 57 := by simpa [isDigit] using digit
      have notSpace : isSpace d = false := by
        simp only [isSpace]
        grind
      have keep : (d :: ds).dropWhile isSpace = d :: ds := by simp [notSpace]
      have noSign : (d :: ds).head? ≠ some 45 ∧ (d :: ds).head? ≠ some 43 := by
        simp only [List.head?_cons, ne_eq, Option.some.injEq]
        grind
      simp only [strtoll, keep]
      rw [if_neg noSign.1, if_neg noSign.2, leadingNumber_digits digits]
      omega
  | @plus ds some_ digits =>
      show min (2 ^ 63 - 1) (leadingNumber ds : Int) = _
      rw [leadingNumber_digits digits]
      omega
  | @minus ds some_ digits =>
      show max (-2 ^ 63) (-(leadingNumber ds : Int)) = _
      rw [leadingNumber_digits digits]
      omega

theorem atoi_integerText {t : List UInt8} {value : Int} (h : IntegerText t value) :
    Int32.ofInt (atoi t) = stored value := by
  rw [atoi, strtoll_integerText h, stored]

/-- An int is kept as it is, and nothing else is. -/
theorem stored_toInt_iff (value : Int) : (stored value).toInt = value ↔ Fits value := by
  have small : -2 ^ 31 ≤ toInt32 (clamp value) ∧ toInt32 (clamp value) < 2 ^ 31 := by
    unfold toInt32
    omega
  have kept : (stored value).toInt = toInt32 (clamp value) :=
    Int32.toInt_ofInt_of_le (by simpa using small.1) (by simpa using small.2)
  rw [kept]
  constructor
  · intro same
    rw [same] at small
    exact small
  · rintro ⟨low, high⟩
    unfold clamp toInt32
    omega

theorem photoCells_integers {es : List XmlNode} {values : List Int}
    (h : List.Forall₂ IntegerCell es values) (tablenum : Int32) (vm_tmp : List Cell) :
    photoCells es tablenum vm_tmp =
      (tablenum + Int32.ofInt values.length,
        some (vm_tmp ++ values.map fun value => cell (stored value))) := by
  induction h generalizing tablenum vm_tmp with
  | nil => simp [photoCells]
  | @cons e value es values first later ih =>
      obtain ⟨t, text, integer⟩ := first
      have count : tablenum + 1 + Int32.ofInt values.length =
          tablenum + Int32.ofInt (value :: values).length := by
        rw [List.length_cons, Int.natCast_succ, Int32.ofInt_add, Int32.add_assoc, Int32.add_comm 1]
        rfl
      simp only [photoCells, text, atoi_integerText integer, ih, count]
      simp

/-- The entries that the walk makes of these rows. -/
def entriesOf (rows : List (List Int)) : List (List Cell) :=
  rows.map fun row => row.map fun value => cell (stored value)

theorem photoTable_integers {nodes : List XmlNode} {rows : List (List Int)}
    (h : List.Forall₂ (fun row values => List.Forall₂ IntegerCell (elements row) values) nodes rows)
    (tablenum : Int32) (vvm_tmp : List (List Cell)) :
    photoTable nodes tablenum vvm_tmp =
      (tablenum + Int32.ofInt (total rows), some (vvm_tmp ++ entriesOf rows)) := by
  induction h generalizing tablenum vvm_tmp with
  | nil => simp [photoTable, total, entriesOf]
  | @cons node values nodes rows first later ih =>
      have count : tablenum + Int32.ofInt values.length + Int32.ofInt (total rows) =
          tablenum + Int32.ofInt (total (values :: rows)) := by
        have sum : total (values :: rows) = values.length + total rows := rfl
        rw [sum, Int.natCast_add, Int32.ofInt_add, Int32.add_assoc]
      have row := photoCells_integers first tablenum []
      rw [elements] at row
      simp only [photoTable, row, ih, count]
      simp [entriesOf]

theorem cellOf_stored_iff (value : Int) : CellOf value (cell (stored value)) ↔ Fits value := by
  rw [← stored_toInt_iff]
  constructor
  · rintro ⟨camtype, same, number⟩
    have entries : [(bytes "camtype", stored value)] = [(bytes "camtype", camtype)] :=
      congrArg StdMap.entries same
    rw [List.singleton_inj, Prod.mk.injEq] at entries
    rw [entries.2]
    exact number
  · exact fun number => ⟨_, rfl, number⟩

theorem entriesOf_iff (rows : List (List Int)) :
    List.Forall₂ (List.Forall₂ CellOf) rows (entriesOf rows) ↔
      ∀ row ∈ rows, ∀ value ∈ row, Fits value := by
  simp only [entriesOf, List.forall₂_map_right_iff, List.forall₂_same, cellOf_stored_iff]

/-- A load that has found these rows gives the same state when it is made again. -/
theorem loads_again {doc : List XmlNode} {tablenum : Int32} {vvm_tmp : List (List Cell)}
    (walk : photoTable (tableRows doc) 0 [] = (tablenum, some vvm_tmp)) (c : EaPhotoL2) (n : Nat) :
    loads doc (n + 1) c = .returned true
      { c with tablenum := tablenum, param := c.param.put (bytes "row") ⟨vvm_tmp⟩ } := by
  have once (c : EaPhotoL2) : loadphotoConfig (some doc) c = .returned true
      { c with tablenum := tablenum, param := c.param.put (bytes "row") ⟨vvm_tmp⟩ } := by
    simp only [loadphotoConfig, walk]
  induction n generalizing c with
  | zero => simp only [loads, once]
  | succ n ih =>
      rw [loads, once]
      simp only [ih, StdMap.put_put]

theorem find?_and {α : Type*} {p q : α → Bool} {l : List α} {x : α} (h : l.find? p = some x)
    (holds : q x = true) : l.find? (fun y => q y && p y) = some x := by
  induction l with
  | nil => cases h
  | cons y l ih =>
      by_cases here : p y = true
      · rw [List.find?_cons_of_pos here] at h
        obtain rfl := Option.some.inj h
        exact List.find?_cons_of_pos (by simp [here, holds])
      · rw [List.find?_cons_of_neg here] at h
        rw [List.find?_cons_of_neg (by simp [here]), ih h]

theorem tableRows_reached {doc : List XmlNode} {table : XmlNode} (h : Reached doc table) :
    tableRows doc = elements table := by
  obtain ⟨first, starts⟩ := h
  simp only [tableRows, first, elements]
  cases children : table.children with
  | nil => rfl
  | cons node rest =>
      have row : node.isElement = true := starts node (by rw [children]; rfl)
      simp only [row, if_true, List.filter_cons_of_pos row]

/-- Behind a node of another kind, or a first child of another kind, no row is found. -/
theorem tableRows_missed {doc : List XmlNode} {table : XmlNode} {rows : List (List Int)}
    (file : PhotoFile doc table rows) (missed : ¬ Reached doc table) : tableRows doc = [] := by
  obtain ⟨root, found, first⟩ := Option.bind_eq_some_iff.mp file.first
  unfold tableRows
  cases node : firstChild (rootElement doc) "table_xx" with
  | none => rfl
  | some other =>
      rw [found, firstChild, Option.bind_some] at node
      by_cases element : other.isElement = true
      · have same : other = table := Option.some.inj ((find?_and node element).symm.trans first)
        subst same
        cases children : other.children with
        | nil =>
            refine absurd ⟨?_, ?_⟩ missed
            · rw [found, firstChild, Option.bind_some, node]
            · rw [children]
              nofun
        | cons child rest =>
            have notRow : ¬ child.isElement = true := fun row => by
              refine missed ⟨?_, ?_⟩
              · rw [found, firstChild, Option.bind_some, node]
              · rw [children]
                intro d hd
                obtain rfl := Option.some.inj hd
                exact row
            simp only [children, if_neg notRow]
      · have none_ : other.children = [] := by
          cases other with
          | element value children => exact absurd rfl element
          | text _ | comment _ | unknown _ | declaration _ => rfl
        simp only [none_]

theorem mirrors_put_iff {rows : List (List Int)} {c : EaPhotoL2} {tablenum : Int32}
    {vvm_tmp : List (List Cell)} :
    Mirrors rows { c with tablenum := tablenum, param := c.param.put (bytes "row") ⟨vvm_tmp⟩ } ↔
      List.Forall₂ (List.Forall₂ CellOf) rows vvm_tmp ∧ tablenum.toInt = total rows := by
  have found := StdMap.find?_put (bytes "row") (EaPhotoL1.mk vvm_tmp) c.param
  constructor
  · rintro ⟨⟨entries, row, cells⟩, count⟩
    obtain rfl := EaPhotoL1.mk.inj (Option.some.inj (found.symm.trans row))
    exact ⟨cells, count⟩
  · rintro ⟨cells, count⟩
    exact ⟨⟨vvm_tmp, found, cells⟩, count⟩

/-- The photo matrix mirrors the file, however often it is loaded, exactly when the walk
reaches the rows, an int holds each integer and their number, or there is no row. -/
theorem photo_mirrors_iff {doc : List XmlNode} {table : XmlNode} {rows : List (List Int)}
    (file : PhotoFile doc table rows) (c : EaPhotoL2) :
    (∃ c', (∀ n, loads doc (n + 1) c = .returned true c') ∧ Mirrors rows c') ↔
      rows = [] ∨
        Reached doc table ∧ (∀ row ∈ rows, ∀ value ∈ row, Fits value) ∧ total rows < 2 ^ 31 := by
  have walked {tablenum : Int32} {vvm_tmp : List (List Cell)}
      (walk : photoTable (tableRows doc) 0 [] = (tablenum, some vvm_tmp)) :
      (∃ c', (∀ n, loads doc (n + 1) c = .returned true c') ∧ Mirrors rows c') ↔
        List.Forall₂ (List.Forall₂ CellOf) rows vvm_tmp ∧ tablenum.toInt = total rows := by
    have again := loads_again walk c
    rw [← mirrors_put_iff (c := c)]
    constructor
    · rintro ⟨c', all, mirrors⟩
      obtain rfl := (Load.returned.inj ((all 0).symm.trans (again 0))).2
      exact mirrors
    · exact fun mirrors => ⟨_, again, mirrors⟩
  by_cases reached : Reached doc table
  · have walk := photoTable_integers file.cells 0 []
    rw [← tableRows_reached reached, List.nil_append, Int32.zero_add] at walk
    rw [walked walk, entriesOf_iff, Int32.toInt_ofInt, Int.bmod_def]
    have size : Int32.size = 2 ^ 32 := rfl
    constructor
    · rintro ⟨fits, count⟩
      refine .inr ⟨reached, fits, ?_⟩
      rw [size] at count
      split at count <;> omega
    · rintro (rfl | ⟨-, fits, small⟩)
      · exact ⟨nofun, rfl⟩
      · refine ⟨fits, ?_⟩
        rw [size]
        split <;> omega
  · have walk : photoTable (tableRows doc) 0 [] = (0, some []) := by
      rw [tableRows_missed file reached, photoTable]
    rw [walked walk, List.forall₂_nil_right_iff]
    constructor
    · exact fun none_ => .inl none_.1
    · rintro (rfl | ⟨other, -⟩)
      · exact ⟨rfl, rfl⟩
      · exact absurd other reached

theorem integerCell_digits {name : List UInt8} {t : List UInt8} {value : Int}
    (text : cstr t = t) (integer : IntegerText t value) :
    IntegerCell (.element name [.text t]) value :=
  ⟨t, congrArg some text, integer⟩

/-- A row of two cells with a comment between them. -/
def plainRow : XmlNode :=
  .element (bytes "row")
    [.element (bytes "cell") [.text [55]], .comment [], .element (bytes "cell") [.text [45, 56]]]

theorem plainRow_cells : List.Forall₂ IntegerCell (elements plainRow) [7, -8] := by
  have seven : IntegerText [55] 7 := by
    have value : (7 : Int) = digitsValue [55] := by decide
    rw [value]
    exact .unsigned (List.cons_ne_nil _ _) (by simp [isDigit])
  have eight : IntegerText [45, 56] (-8) := by
    have value : (-8 : Int) = -digitsValue [56] := by decide
    rw [value]
    exact .minus (List.cons_ne_nil _ _) (by simp [isDigit])
  exact .cons (integerCell_digits rfl seven) (.cons (integerCell_digits rfl eight) .nil)

def plainFile : List XmlNode :=
  [.element (bytes "photo") [.element (bytes "table_xx") [plainRow, .comment []]]]

theorem photo_mirrors_plainFile :
    ∃ c', (∀ n, loads plainFile (n + 1) ⟨0, 0, .empty⟩ = .returned true c') ∧
      Mirrors [[7, -8]] c' := by
  have file : PhotoFile plainFile (.element (bytes "table_xx") [plainRow, .comment []])
      [[7, -8]] := ⟨rfl, .cons plainRow_cells .nil⟩
  refine (photo_mirrors_iff file ⟨0, 0, .empty⟩).mpr (.inr ⟨⟨rfl, ?_⟩, ?_, by decide⟩)
  · intro node first
    obtain rfl := Option.some.inj first
    rfl
  · simp [Fits]

def commentedTable : XmlNode := .element (bytes "table_xx") [.comment [], plainRow]

/-- A comment stands before the first row, which is lost. -/
theorem commentedTable_lost :
    PhotoFile [.element (bytes "photo") [commentedTable]] commentedTable [[7, -8]] ∧
      ¬ ∃ c', (∀ n, loads [.element (bytes "photo") [commentedTable]] (n + 1) ⟨0, 0, .empty⟩ =
        .returned true c') ∧ Mirrors [[7, -8]] c' := by
  refine ⟨⟨rfl, .cons plainRow_cells .nil⟩, ?_⟩
  rintro ⟨c', all, mirrors⟩
  have walk : photoTable (tableRows [.element (bytes "photo") [commentedTable]]) 0 [] =
      (0, some []) := rfl
  have again := loads_again walk ⟨0, 0, .empty⟩ 0
  obtain rfl := (Load.returned.inj ((all 0).symm.trans again)).2
  cases (mirrors_put_iff.mp mirrors).1

end HZRobot.ConfigPhoto
