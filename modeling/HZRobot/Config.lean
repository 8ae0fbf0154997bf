import HZRobot.CNumbers

/-!
Loading the server and database configuration from a parsed XML document.
TiXmlHandle passes null along, but Element and GetText hand it to the caller,
and the loaders use both without a test; a null pointer is no exception, so the
catch block never sees it. The load is modelled with the struct as it stands
when the null pointer is used.
-/

namespace HZRobot.Config

inductive XmlNode where
  | element (value : List UInt8) (children : List XmlNode)
  | text (value : List UInt8)
  | comment (value : List UInt8)
  | unknown (value : List UInt8)
  | declaration (value : List UInt8)

def XmlNode.value : XmlNode → List UInt8
  | .element v _ | .text v | .comment v | .unknown v | .declaration v => v

def XmlNode.children : XmlNode → List XmlNode
  | .element _ cs => cs
  | _ => []

def XmlNode.isElement : XmlNode → Bool
  | .element _ _ => true
  | _ => false

/-- TiXmlHandle::FirstChild(value): strcmp over children of any kind. -/
def firstChild (h : Option XmlNode) (value : String) : Option XmlNode :=
  h.bind fun n => n.children.find? fun c => cstr c.value = bytes value

/-- TiXmlHandle::Element. -/
def toElement (h : Option XmlNode) : Option XmlNode := h.filter XmlNode.isElement

/-- TiXmlElement::GetText: the first child, if it is a text. -/
def getText (e : XmlNode) : Option (List UInt8) :=
  match e.children.head? with
  | some (.text v) => some (cstr v)
  | _ => none

/-- The root element of the document, as hDoc.FirstChildElement().Element(). -/
def rootElement (doc : List XmlNode) : Option XmlNode := doc.find? XmlNode.isElement

/-- The text a loader reads for one field; none where it would use null. -/
def fieldText (doc : List XmlNode) (table field : String) : Option (List UInt8) :=
  (toElement (firstChild (firstChild (rootElement doc) table) field)).bind getText

structure MysqlConfig where
  ip : List UInt8
  port : List UInt8
  user : List UInt8
  passwd : List UInt8
  dbname : List UInt8

structure ServerConfig where
  server_ip : List UInt8
  server_port : Nat
  doc_root : List UInt8
  threads : Int
  robot_ip : List UInt8
  robot_port : List UInt8
  ea_ip : List UInt8
  ea_port : List UInt8
  timeout : Int
  cn_photo : Int

inductive Load (α : Type) where
  | returned (ok : Bool) (config : α)
  | nullUse (config : α)

/-- The fields a loader reads, in its order, each with its assignment. -/
abbrev Fields (α : Type) := List (String × (List UInt8 → α → α))

def assignFields {α : Type} (doc : List XmlNode) (table : String) : Fields α → α → Load α
  | [], c => .returned true c
  | (field, assign) :: rest, c =>
      match fieldText doc table field with
      | none => .nullUse c
      | some t => assignFields doc table rest (assign t c)

/-- A loader on the result of LoadFile, none when the file was not accepted. -/
def load {α : Type} (table : String) (fields : Fields α) (file : Option (List XmlNode)) (c : α) :
    Load α :=
  match file with
  | none => .returned false c
  | some doc => assignFields doc table fields c

def mysqlFields : Fields MysqlConfig :=
  [("user", fun t c => { c with user := t }),
    ("password", fun t c => { c with passwd := t }),
    ("server_ip", fun t c => { c with ip := t }),
    ("port", fun t c => { c with port := t }),
    ("dbname", fun t c => { c with dbname := t })]

def serverFields : Fields ServerConfig :=
  [("server_ip", fun t c => { c with server_ip := t }),
    ("server_port", fun t c => { c with server_port := toUint16 (atoi t) }),
    ("doc_root", fun t c => { c with doc_root := t }),
    ("threads", fun t c => { c with threads := atoi t }),
    ("robot_ip", fun t c => { c with robot_ip := t }),
    ("ea_ip", fun t c => { c with ea_ip := t }),
    ("ea_port", fun t c => { c with ea_port := t }),
    ("robot_port", fun t c => { c with robot_port := t }),
    ("timeout", fun t c => { c with timeout := atoi t }),
    ("take_photo_times", fun t c => { c with cn_photo := atoi t })]

def loadmysqlConfig (file : Option (List XmlNode)) (c : MysqlConfig) : Load MysqlConfig :=
  load "databases" mysqlFields file c

def loadserverConfig (file : Option (List XmlNode)) (c : ServerConfig) : Load ServerConfig :=
  load "server" serverFields file c

structure PhotoConfig where
  tablenum : Int
  row : List (List Int)

/-- The inner loop of loadphoto_config over the elements of one row: the count
so far and the row, none where a missing text is used. -/
def photoRow : List XmlNode → Int → List Int → Int × Option (List Int)
  | [], tablenum, row => (tablenum, some row)
  | e :: es, tablenum, row =>
      match getText e with
      | none => (tablenum, none)
      | some t => photoRow es (tablenum + 1) (row ++ [atoi t])

def photoRows : List XmlNode → Int → List (List Int) → Int × Option (List (List Int))
  | [], tablenum, rows => (tablenum, some rows)
  | node :: nodes, tablenum, rows =>
      match photoRow (node.children.filter XmlNode.isElement) tablenum [] with
      | (tablenum, none) => (tablenum, none)
      | (tablenum, some row) => photoRows nodes tablenum (rows ++ [row])

/-- The rows start at the first child of table_xx, which must be an element. -/
def tableRows (doc : List XmlNode) : List XmlNode :=
  match firstChild (rootElement doc) "table_xx" with
  | none => []
  | some table =>
      match table.children with
      | [] => []
      | first :: rest => if first.isElement then first :: rest.filter XmlNode.isElement else []

def loadphotoConfig (file : Option (List XmlNode)) (c : PhotoConfig) : Load PhotoConfig :=
  match file with
  | none => .returned false c
  | some doc =>
      match photoRows (tableRows doc) 0 [] with
      | (tablenum, none) => .nullUse { c with tablenum := tablenum }
      | (tablenum, some rows) => .returned true { tablenum := tablenum, row := rows }

/-- Every field of the struct comes from its element. -/
def MysqlFrom (doc : List XmlNode) (c : MysqlConfig) : Prop :=
  fieldText doc "databases" "user" = some c.user ∧
  fieldText doc "databases" "password" = some c.passwd ∧
  fieldText doc "databases" "server_ip" = some c.ip ∧
  fieldText doc "databases" "port" = some c.port ∧
  fieldText doc "databases" "dbname" = some c.dbname

def ServerFrom (doc : List XmlNode) (c : ServerConfig) : Prop :=
  fieldText doc "server" "server_ip" = some c.server_ip ∧
  (fieldText doc "server" "server_port").map (fun t => toUint16 (atoi t)) = some c.server_port ∧
  fieldText doc "server" "doc_root" = some c.doc_root ∧
  (fieldText doc "server" "threads").map atoi = some c.threads ∧
  fieldText doc "server" "robot_ip" = some c.robot_ip ∧
  fieldText doc "server" "robot_port" = some c.robot_port ∧
  fieldText doc "server" "ea_ip" = some c.ea_ip ∧
  fieldText doc "server" "ea_port" = some c.ea_port ∧
  (fieldText doc "server" "timeout").map atoi = some c.timeout ∧
  (fieldText doc "server" "take_photo_times").map atoi = some c.cn_photo

/-- The load returns, with all fields set or with the struct as it was. -/
def AllOrNothing {α : Type} (from_ : α → Prop) (old : α) (r : Load α) : Prop :=
  (∃ c, r = .returned true c ∧ from_ c) ∨ r = .returned false old

/-- Every element a loader expects is there and starts with a text. -/
def Complete {α : Type} (doc : List XmlNode) (table : String) (fields : Fields α) : Prop :=
  ∀ f ∈ fields, (fieldText doc table f.1).isSome

theorem assignFields_incomplete {α : Type} {doc : List XmlNode} {table : String}
    {fields : Fields α} (h : ¬ Complete doc table fields) (c : α) :
    ∃ d, assignFields doc table fields c = .nullUse d := by
  induction fields generalizing c with
  | nil => exact absurd (fun f hf => nomatch hf) h
  | cons f rest ih =>
      obtain ⟨field, assign⟩ := f
      simp only [assignFields]
      cases found : fieldText doc table field with
      | none => exact ⟨c, rfl⟩
      | some t =>
          apply ih
          intro complete
          apply h
          intro g hg
          rcases List.mem_cons.mp hg with rfl | hg
          · simp [found]
          · exact complete g hg

def Load.isNull {α : Type} : Load α → Bool
  | .returned _ _ => false
  | .nullUse _ => true

/-- Every cell of every row has a text. -/
def CompleteRows (rows : List XmlNode) : Prop :=
  ∀ node ∈ rows, ∀ e ∈ node.children.filter XmlNode.isElement, (getText e).isSome

theorem photoRow_isSome (es : List XmlNode) (tablenum : Int) (row : List Int) :
    (photoRow es tablenum row).2.isSome ↔ ∀ e ∈ es, (getText e).isSome := by
  induction es generalizing tablenum row with
  | nil => simp [photoRow]
  | cons e es ih =>
      cases text : getText e with
      | none => simp [photoRow, text]
      | some t => simp [photoRow, text, ih]

theorem photoRows_isSome (nodes : List XmlNode) (tablenum : Int) (rows : List (List Int)) :
    (photoRows nodes tablenum rows).2.isSome ↔ CompleteRows nodes := by
  induction nodes generalizing tablenum rows with
  | nil => simp [photoRows, CompleteRows]
  | cons node nodes ih =>
      have cells := photoRow_isSome (node.children.filter XmlNode.isElement) tablenum []
      rw [photoRows, CompleteRows, List.forall_mem_cons, ← cells]
      cases h : photoRow (node.children.filter XmlNode.isElement) tablenum [] with
      | mk count row =>
          cases row with
          | none => simp
          | some row =>
              simp only [Option.isSome_some, true_and]
              exact ih count (rows ++ [row])

theorem loadphotoConfig_isNull (file : Option (List XmlNode)) (c : PhotoConfig) :
    (loadphotoConfig file c).isNull = false ↔
      ∀ doc, file = some doc → CompleteRows (tableRows doc) := by
  cases file with
  | none => simp [loadphotoConfig, Load.isNull]
  | some doc =>
      have rows := photoRows_isSome (tableRows doc) 0 []
      simp only [Option.some.injEq, forall_eq', ← rows, loadphotoConfig]
      cases h : photoRows (tableRows doc) 0 [] with
      | mk count rows => cases rows <;> simp [Load.isNull]

theorem allOrNothing_complete {α : Type} {doc : List XmlNode} {table : String}
    {fields : Fields α} {from_ : α → Prop} {old : α}
    (h : AllOrNothing from_ old (load table fields (some doc) old)) :
    Complete doc table fields := by
  by_contra incomplete
  obtain ⟨d, hd⟩ := assignFields_incomplete incomplete old
  rcases h with ⟨c, hc, -⟩ | hc <;> simp [load, hd] at hc

theorem exists_text {α : Type} {doc : List XmlNode} {table field : String} {fields : Fields α}
    {assign : List UInt8 → α → α} (h : Complete doc table fields)
    (mem : (field, assign) ∈ fields) : ∃ t, fieldText doc table field = some t :=
  Option.isSome_iff_exists.mp (h (field, assign) mem)

theorem loadmysqlConfig_complete {doc : List XmlNode} (h : Complete doc "databases" mysqlFields)
    (old : MysqlConfig) : AllOrNothing (MysqlFrom doc) old (loadmysqlConfig (some doc) old) := by
  obtain ⟨user, h1⟩ := exists_text h (List.mem_of_getElem? (i := 0) rfl)
  obtain ⟨passwd, h2⟩ := exists_text h (List.mem_of_getElem? (i := 1) rfl)
  obtain ⟨ip, h3⟩ := exists_text h (List.mem_of_getElem? (i := 2) rfl)
  obtain ⟨port, h4⟩ := exists_text h (List.mem_of_getElem? (i := 3) rfl)
  obtain ⟨dbname, h5⟩ := exists_text h (List.mem_of_getElem? (i := 4) rfl)
  refine .inl ⟨⟨ip, port, user, passwd, dbname⟩, ?_, ?_⟩
  · simp [loadmysqlConfig, load, mysqlFields, assignFields, h1, h2, h3, h4, h5]
  · simp [MysqlFrom, h1, h2, h3, h4, h5]

theorem loadserverConfig_complete {doc : List XmlNode} (h : Complete doc "server" serverFields)
    (old : ServerConfig) :
    AllOrNothing (ServerFrom doc) old (loadserverConfig (some doc) old) := by
  obtain ⟨server_ip, h1⟩ := exists_text h (List.mem_of_getElem? (i := 0) rfl)
  obtain ⟨server_port, h2⟩ := exists_text h (List.mem_of_getElem? (i := 1) rfl)
  obtain ⟨doc_root, h3⟩ := exists_text h (List.mem_of_getElem? (i := 2) rfl)
  obtain ⟨threads, h4⟩ := exists_text h (List.mem_of_getElem? (i := 3) rfl)
  obtain ⟨robot_ip, h5⟩ := exists_text h (List.mem_of_getElem? (i := 4) rfl)
  obtain ⟨ea_ip, h6⟩ := exists_text h (List.mem_of_getElem? (i := 5) rfl)
  obtain ⟨ea_port, h7⟩ := exists_text h (List.mem_of_getElem? (i := 6) rfl)
  obtain ⟨robot_port, h8⟩ := exists_text h (List.mem_of_getElem? (i := 7) rfl)
  obtain ⟨timeout, h9⟩ := exists_text h (List.mem_of_getElem? (i := 8) rfl)
  obtain ⟨cn_photo, h10⟩ := exists_text h (List.mem_of_getElem? (i := 9) rfl)
  refine .inl ⟨⟨server_ip, toUint16 (atoi server_port), doc_root, atoi threads, robot_ip,
    robot_port, ea_ip, ea_port, atoi timeout, atoi cn_photo⟩, ?_, ?_⟩
  · simp [loadserverConfig, load, serverFields, assignFields, h1, h2, h3, h4, h5, h6, h7, h8,
      h9, h10]
  · simp [ServerFrom, h1, h2, h3, h4, h5, h6, h7, h8, h9, h10]

/-- A load is all or nothing exactly when no expected element or text is missing. -/
theorem load_all_or_nothing_iff (doc : List XmlNode) (sql : MysqlConfig) (ser : ServerConfig) :
    (AllOrNothing (MysqlFrom doc) sql (loadmysqlConfig (some doc) sql) ↔
      Complete doc "databases" mysqlFields) ∧
    (AllOrNothing (ServerFrom doc) ser (loadserverConfig (some doc) ser) ↔
      Complete doc "server" serverFields) :=
  ⟨⟨allOrNothing_complete, fun h => loadmysqlConfig_complete h sql⟩,
    ⟨allOrNothing_complete, fun h => loadserverConfig_complete h ser⟩⟩

/-- A database section with a user and nothing else: the password element is
null, and the user is already overwritten. -/
def onlyUser : List XmlNode :=
  [.element (bytes "root")
    [.element (bytes "databases") [.element (bytes "user") [.text (bytes "robot")]]]]

theorem only_user_half_loaded :
    ∃ old, ¬ AllOrNothing (MysqlFrom onlyUser) old (loadmysqlConfig (some onlyUser) old) := by
  refine ⟨⟨[], [], [], [], []⟩, ?_⟩
  have stopped : loadmysqlConfig (some onlyUser) ⟨[], [], [], [], []⟩ =
      .nullUse ⟨[], [], bytes "robot", [], []⟩ := rfl
  rw [stopped]
  rintro (⟨c, hc, -⟩ | hc) <;> cases hc

end HZRobot.Config
