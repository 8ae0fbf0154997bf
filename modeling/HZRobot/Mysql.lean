import HZRobot.CNumbers
import HZRobot.Triples

/-!
The db::mysql connection object over an arbitrary libmysqlclient. The library
answers each call as a function of the calls made so far, and every call is
recorded with its arguments. Handles and result sets are numbered by the call
that returns them; a null handle argument is recorded as none.
-/

namespace HZRobot.Mysql

inductive MysqlOption where
  | connectTimeout
  | readTimeout
  | writeTimeout
  | reconnect
  deriving DecidableEq, Repr

inductive Call where
  | init (handle : Option Nat)
  | options (conn : Option Nat) (option : MysqlOption) (value : Nat)
  | realConnect (conn : Option Nat) (host : Option (List UInt8))
      (user password database : List UInt8) (port : Nat) (unixSocket : Option (List UInt8))
      (flags : Nat) (connected : Bool)
  | setCharacterSet (conn : Option Nat) (charset : List UInt8) (failed : Bool)
  | autocommit (conn : Option Nat) (mode failed : Bool)
  | error (conn : Option Nat)
  | errno (conn : Option Nat)
  | query (conn : Option Nat) (sql : List UInt8) (failed : Bool)
  | storeResult (conn : Option Nat) (result : Option Nat)
  | affectedRows (conn : Option Nat)
  | close (conn : Option Nat)
  | numFields (result : Nat)
  | numRows (result : Nat)
  | fetchFields (result : Nat)
  | fetchRow (result : Nat)
  | freeResult (result : Nat)
  deriving DecidableEq, Repr

/-- The handle argument of a call, for the calls that take one. -/
def Call.handle : Call → Option (Option Nat)
  | .options conn _ _ | .realConnect conn _ _ _ _ _ _ _ _ | .setCharacterSet conn _ _
  | .autocommit conn _ _ | .error conn | .errno conn | .query conn _ _ | .storeResult conn _
  | .affectedRows conn | .close conn => some conn
  | _ => none

/-- The result set argument of a call. -/
def Call.resultSet : Call → Option Nat
  | .numFields r | .numRows r | .fetchFields r | .fetchRow r | .freeResult r => some r
  | _ => none

/-- The answers of libmysqlclient, from the calls made before (latest first): any
answer of its C type. An array of names or of values is the list of its entries,
a null entry is none; a null array of names is the empty list. -/
structure Library where
  init : List Call → Bool
  realConnect : List Call → Bool
  setCharacterSet : List Call → Bool
  autocommit : List Call → Bool
  query : List Call → Bool
  errno : List Call → UInt32
  storeResult : List Call → Bool
  affectedRows : List Call → UInt64
  numFields : List Call → UInt32
  numRows : List Call → UInt64
  fetchFields : List Call → List (Option (List UInt8))
  fetchRow : List Call → Option (List (Option (List UInt8)))

structure ConnectInfo where
  addr : List UInt8
  database : List UInt8
  user : List UInt8
  password : List UInt8
  charset : List UInt8 := bytes "utf8"
  flags : Nat := 0
  conn_timeout : Nat := 0
  rw_timeout : Nat := 0
  auto_commit : Bool := true

structure DbResult where
  columns : List (List UInt8 × Nat) := []
  head : List (List UInt8) := []
  rows : List (List (List UInt8)) := []
  deriving DecidableEq, Repr

/-- How an operation ends: with its value, by an exception, or with an access
outside an array. -/
inductive Ending (α : Type) where
  | value (a : α)
  | thrown
  | undefined
  deriving DecidableEq, Repr

/-- The object's connection pointer and the calls made, latest first. -/
structure World where
  conn : Option Nat
  calls : List Call

abbrev Program := StateM World

def getConn : Program (Option Nat) := fun w => (w.conn, w)

def setConn (conn : Option Nat) : Program PUnit := fun w => (⟨⟩, { w with conn := conn })

def record (c : Call) : Program PUnit := fun w => (⟨⟩, { w with calls := c :: w.calls })

/-- A call whose record shows its answer. -/
def ask {α : Type} (answer : List Call → α) (c : α → Call) : Program α :=
  fun w => (answer w.calls, { w with calls := c (answer w.calls) :: w.calls })

@[simp] theorem bind_apply {α β : Type} (m : Program α) (k : α → Program β) (w : World) :
    (m >>= k) w = k (m w).1 (m w).2 := rfl

@[simp] theorem pure_apply {α : Type} (a : α) (w : World) : (pure a : Program α) w = (a, w) := rfl

@[simp] theorem map_apply {α β : Type} (f : α → β) (m : Program α) (w : World) :
    (f <$> m) w = (f (m w).1, (m w).2) := rfl

@[simp] theorem ask_apply {α : Type} (answer : List Call → α) (c : α → Call) (w : World) :
    ask answer c w = (answer w.calls, { w with calls := c (answer w.calls) :: w.calls }) := rfl

section
variable (lib : Library) (info : ConnectInfo)

def mysqlInit : Program (Option Nat) :=
  ask (fun calls => if lib.init calls then some calls.length else none) .init

def mysqlErrno (conn : Option Nat) : Program UInt32 := ask lib.errno fun _ => .errno conn

def mysqlQuery (conn : Option Nat) (sql : List UInt8) : Program Bool :=
  ask lib.query (.query conn (cstr sql))

def mysqlStoreResult (conn : Option Nat) : Program (Option Nat) :=
  ask (fun calls => if lib.storeResult calls then some calls.length else none) (.storeResult conn)

def mysqlAffectedRows (conn : Option Nat) : Program UInt64 :=
  ask lib.affectedRows fun _ => .affectedRows conn

def mysqlNumFields (res : Nat) : Program UInt32 := ask lib.numFields fun _ => .numFields res

def mysqlNumRows (res : Nat) : Program UInt64 := ask lib.numRows fun _ => .numRows res

def mysqlFetchFields (res : Nat) : Program (List (Option (List UInt8))) :=
  ask lib.fetchFields fun _ => .fetchFields res

def mysqlFetchRow (res : Nat) : Program (Option (List (Option (List UInt8)))) :=
  ask lib.fetchRow fun _ => .fetchRow res

/-- socket::parse_addr, none where it returns false. -/
def parseAddr (addr : List UInt8) : Option (List UInt8 × Nat) :=
  match addr.idxOf? 58 with
  | none => none
  | some 0 => none
  | some pos => some (addr.take pos, toUint16 (atoi (cstr (addr.drop (pos + 1)))))

def setTimeout (timeout : Nat) (options : List MysqlOption) : Program PUnit :=
  if 0 < timeout then do
    let conn ← getConn
    options.forM fun o => record (.options conn o timeout)
  else return ⟨⟩

/-- The mysql_real_connect call of open. -/
def realConnect : Program Bool := do
  let conn ← getConn
  match parseAddr info.addr with
  | some (ip, port) =>
      ask lib.realConnect (.realConnect conn (some (cstr ip)) (cstr info.user)
        (cstr info.password) (cstr info.database) port none info.flags)
  | none =>
      ask lib.realConnect (.realConnect conn none (cstr info.user)
        (cstr info.password) (cstr info.database) 0 (some (cstr info.addr)) info.flags)

def setCharset : Program PUnit :=
  if info.charset = [] then return ⟨⟩
  else do
    let failed ← ask lib.setCharacterSet (.setCharacterSet (← getConn) (cstr info.charset))
    if failed then record (.error (← getConn)) else return ⟨⟩

/-- The error paths of open: close the handle and forget it. -/
def giveUp : Program Bool := do
  record (.close (← getConn))
  setConn none
  return false

/-- What open does with the handle mysql_init returned. -/
def connectHandle : Program Bool := do
  setTimeout info.conn_timeout [.connectTimeout]
  setTimeout info.rw_timeout [.readTimeout, .writeTimeout]
  record (.options (← getConn) .reconnect 1)
  if ← realConnect lib info then
    setCharset lib info
    if ← ask lib.autocommit (.autocommit (← getConn) info.auto_commit) then
      giveUp
    else
      return true
  else
    giveUp

def openConn : Program Bool := do
  if (← getConn).isSome then
    return true
  else
    setConn (← mysqlInit lib)
    if (← getConn).isNone then
      return false
    else
      connectHandle lib info

def close : Program Bool := do
  if (← getConn).isSome then
    record (.close (← getConn))
    setConn none
    return true
  else
    return true

def crServerGoneError : Int := 2006

def crServerLost : Int := 2013

def request (sql : List UInt8) : Program Bool := do
  if (← getConn).isNone then
    return false
  else if ← mysqlQuery lib (← getConn) sql then
    let errnum := toInt32 (← mysqlErrno lib (← getConn)).toNat
    if errnum ≠ crServerLost ∧ errnum ≠ crServerGoneError then
      record (.error (← getConn))
      return false
    else
      let _ ← close
      if ← openConn lib info then
        return !(← mysqlQuery lib (← getConn) sql)
      else
        return false
  else
    return true

/-- What exists and select do when there is no result set. -/
def noResult : Program Bool := do
  if (← mysqlErrno lib (← getConn)) ≠ 0 then
    let _ ← close
    return false
  else
    return false

/-- string::format on the statement of exists; none where the resize throws. -/
def showTables (table : List UInt8) : Option (List UInt8) :=
  let sql := bytes "show tables like '" ++ cstr table ++ bytes "'"
  if sql.length < 2 ^ 31 then some sql else none

def exists_ (table : List UInt8) : Program (Ending Bool) := do
  if (← getConn).isNone then
    return .value false
  else match showTables table with
    | none => return .thrown
    | some sql =>
        if ← request lib info (cstr sql) then
          match ← mysqlStoreResult lib (← getConn) with
          | none => return .value (← noResult lib)
          | some res =>
              let nrow ← mysqlNumRows lib res
              record (.freeResult res)
              return .value (decide (0 < nrow.toNat))
        else
          return .value false

/-- The max_size of a vector of rows, beyond which its resize throws. -/
def maxRows : Nat := (2 ^ 63 - 1) / 24

/-- vector::resize. -/
def resize {α : Type} (a : α) (n : Nat) (xs : List α) : List α :=
  xs.take n ++ List.replicate (n - xs.length) a

/-- shine::string from a char pointer: null becomes the empty string. -/
def ofPointer (p : Option (List UInt8)) : List UInt8 := cstr (p.getD [])

/-- The loop of mysql_result::parse over the elements of _rows from index on; none
where it leaves _rows or a row of the library. -/
def fetchRows (ncolumn res : Nat) :
    List (List (List UInt8)) → Program (Option (List (List (List UInt8))))
  | [] => do
      if (← mysqlFetchRow lib res).isNone then return some [] else return none
  | old :: rows => do
      match ← mysqlFetchRow lib res with
      | none => return some (old :: rows)
      | some row =>
          if row.length < ncolumn then
            return none
          else
            let rest ← fetchRows ncolumn res rows
            return rest.map ((row.take ncolumn).map ofPointer :: ·)

/-- How mysql_result::parse ends, and what it leaves in the result object. -/
def parse (result : DbResult) (res : Nat) : Program (Ending PUnit × DbResult) := do
  -- The head never throws: a vector of strings holds more than 2^32 elements.
  let ncolumn := (← mysqlNumFields lib res).toNat
  let result := { result with columns := [], head := resize [] ncolumn result.head }
  let nrow := (← mysqlNumRows lib res).toNat
  if maxRows < nrow then
    return (.thrown, result)
  else
    let fields ← mysqlFetchFields lib res
    if fields.length < ncolumn then
      return (.undefined, result)
    else
      let names := (fields.take ncolumn).map ofPointer
      let columns := names.eraseDups.map fun name => (name, names.idxOf name)
      match ← fetchRows lib ncolumn res (resize [] nrow result.rows) with
      | none => return (.undefined, { result with columns, head := names })
      | some rows => return (.value ⟨⟩, { columns, head := names, rows })

/-- How select ends, and the result object of the caller, if any. -/
def select (sql : List UInt8) (result : Option DbResult) :
    Program (Ending Bool × Option DbResult) := do
  if ← request lib info sql then
    match ← mysqlStoreResult lib (← getConn) with
    | none => return (.value (← noResult lib), result)
    | some res =>
        match result with
        | none =>
            record (.freeResult res)
            return (.value true, none)
        | some result =>
            match ← parse lib result res with
            | (.value _, result) =>
                record (.freeResult res)
                return (.value true, some result)
            | (.thrown, result) => return (.thrown, some result)
            | (.undefined, result) => return (.undefined, some result)
  else
    return (.value false, result)

def execute (sql : List UInt8) : Program Bool := do
  if ← request lib info sql then
    let ret ← mysqlAffectedRows lib (← getConn)
    return decide (toInt32 ret.toNat ≠ -1)
  else
    return false

def affectCount : Program Int := do
  if (← getConn).isSome then
    return toInt32 (← mysqlAffectedRows lib (← getConn)).toNat
  else
    return -1

def getErrno : Program Int := do
  if (← getConn).isSome then
    return toInt32 (← mysqlErrno lib (← getConn)).toNat
  else
    return -1

inductive Op where
  | open
  | close
  | request (sql : List UInt8)
  | exists (table : List UInt8)
  | select (sql : List UInt8) (result : Option DbResult)
  | execute (sql : List UInt8)
  | beginTransaction
  | commit
  | affectCount
  | getErrno
  deriving DecidableEq, Repr

def Ending.forget {α : Type} : Ending α → Ending PUnit
  | .value _ => .value ⟨⟩
  | .thrown => .thrown
  | .undefined => .undefined

def ignore {α : Type} (m : Program α) : Program (Ending PUnit) := do
  let _ ← m
  return .value ⟨⟩

def perform : Op → Program (Ending PUnit)
  | .open => ignore (openConn lib info)
  | .close => ignore close
  | .request sql => ignore (request lib info sql)
  | .exists table => do return (← exists_ lib info table).forget
  | .select sql result => do return (← select lib info sql result).1.forget
  | .execute sql => ignore (execute lib info sql)
  | .beginTransaction => ignore (execute lib info (bytes "start transaction"))
  | .commit => ignore (execute lib info (bytes "commit"))
  | .affectCount => ignore (affectCount lib)
  | .getErrno => ignore (getErrno lib)

/-- The operations one after the other; the application goes on after an
exception. False from the first access outside an array on. -/
def performAll : List Op → Program Bool
  | [] => return true
  | op :: ops => do
      if (← perform lib info op) = .undefined then return false else performAll ops

/-- A sequence of operations on a new object. -/
def run (ops : List Op) : Bool × World := performAll lib info ops ⟨none, []⟩

/-- The calls of a whole life: the operations, then the destructor. -/
def afterDestruction (ops : List Op) : World := (close (run lib info ops).2).2

end

end HZRobot.Mysql
