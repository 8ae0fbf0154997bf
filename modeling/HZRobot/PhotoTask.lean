import HZRobot.HttpTips
import HZRobot.JsonText

/-!
The photo task. execute asks for photos until a reply counts as many successes as tables,
at most cn_photo times. It ignores the result of decode and uses the members of the reply
without a test for null; what is thrown resets the flag.
-/

namespace HZRobot.PhotoTask
open Http Json MysqlLogs

inductive Outcome where
  | failed
  | answered (body : List UInt8)
  deriving DecidableEq, Repr

/-- What sync_c.call comes to in one round of the loop, and the time of the log in the try
block and in the catch block. -/
structure Round where
  outcome : Outcome
  now : Tm
  later : Tm
  deriving DecidableEq, Repr

def actionPhotoFaild : List UInt8 := utf8 "拍照任务执行失败"

def actionPhotoSuccess : List UInt8 := utf8 "拍照任务执行成功"

def actionNumUnsuccess : List UInt8 := utf8 "拍照未执行成功,调整后重新拍照"

/-- How a round ends, the flag then, and the statements of recordlog. -/
structure Turn where
  ending : Ending
  isvaild : Bool
  logged : List (List UInt8)
  deriving DecidableEq, Repr

/-- The catch block. -/
def caught (body : List UInt8) (later : Tm) : Turn :=
  match recordlog later actionPhotoFaild body with
  | some text => ⟨.returned, false, [text]⟩
  | none => ⟨.threw, false, []⟩

/-- recordlog at the end of the try block, where the flag is set already. -/
def logTurn (body : List UInt8) (round : Round) (action remarks : List UInt8) (isvaild : Bool) :
    Turn :=
  match recordlog round.now action remarks with
  | some text => ⟨.returned, isvaild, [text]⟩
  | none => caught body round.later

/-- atoi of request.tablenum and of successnum; none where a null pointer is used. -/
def totals (root : Node) : Option (Int × Int) := do
  let request ← findKvChild root (bytes "request")
  let tablenum ← findKvChild request (bytes "tablenum")
  let successnum ← findKvChild root (bytes "successnum")
  return (atoi tablenum.value, atoi successnum.value)

/-- One round, with the flag false before it. -/
def turn (body : List UInt8) (round : Round) : Turn :=
  match round.outcome with
  | .failed => logTurn body round actionPhotoFaild body false
  | .answered tmp =>
      let json := jsonDecode tmp
      if json.status = .threw then caught body round.later
      else
        match totals json.value with
        | none => ⟨.nullUse, false, []⟩
        | some (totalnum, successnum) =>
            if successnum ≠ totalnum then logTurn body round actionNumUnsuccess tmp false
            else logTurn body round actionPhotoSuccess tmp true

/-- flags has the flag after each call. -/
structure Execution where
  ending : Ending
  isvaild : Bool
  flags : List Bool
  logged : List (List UInt8)
  deriving DecidableEq, Repr

/-- The loop, with so many rounds left before n_cur reaches cn_photo. -/
def photoLoop (body : List UInt8) : Nat → (Nat → Round) → Bool → Execution
  | 0, _, isvaild => ⟨.returned, isvaild, [], []⟩
  | left + 1, rounds, isvaild =>
      if isvaild then ⟨.returned, isvaild, [], []⟩
      else
        let first := turn body (rounds 0)
        if first.ending = .returned then
          let rest := photoLoop body left (fun n => rounds (n + 1)) first.isvaild
          { rest with flags := first.isvaild :: rest.flags, logged := first.logged ++ rest.logged }
        else ⟨first.ending, first.isvaild, [first.isvaild], first.logged⟩

/-- PhotoTask::execute on a new task, whose flag is false. -/
def execute (photo_config : EaPhotoL2) (cn_photo : Int32) (rounds : Nat → Round) : Execution :=
  photoLoop photo_config.jsonEncode cn_photo.toInt.toNat rounds false

section Replies

def hexValue (c : UInt8) : Nat :=
  if isDigit c then c.toNat - 48 else if 97 ≤ c then c.toNat - 87 else c.toNat - 55

/-- In a JSON string a letter stands for itself, or it is written by its code. -/
inductive Letter : UInt8 → List UInt8 → Prop
  | plain {c : UInt8} : Letter c [c]
  | unicode {a b c : UInt8} (code : hexValue a * 16 + hexValue b = c.toNat) :
      Letter c [92, 117, 48, 48, a, b]

/-- What stands between the quotes of a name of letters. -/
def Spells (name text : List UInt8) : Prop :=
  ∃ letters : List (List UInt8), text = letters.flatten ∧ List.Forall₂ Letter name letters

/-- The members of a JSON object. -/
structure JsonMembers (ms : List MemberText) : Prop where
  names : ∀ m ∈ ms, JsonChars m.name ∧ Blanks m.before ∧ Blanks m.behind
  blanks : ∀ m ∈ ms, Blanks m.element.before ∧ Blanks m.element.behind
  values : ∀ m ∈ ms, JsonValue m.element.value

/-- The text is a JSON object that has a member with this name and value. -/
def HasMember (object name value : List UInt8) : Prop :=
  ∃ ms, object = 123 :: ([44].intercalate (ms.map MemberText.text) ++ [125]) ∧ JsonMembers ms ∧
    ∃ m ∈ ms, Spells name m.name ∧ m.element.value = value

/-- A JSON number without fraction and exponent. -/
def IntegerText (text : List UInt8) (i : Int) : Prop :=
  ∃ digits, JsonInt digits ∧
    (text = digits ∧ i = digitsValue digits ∨ text = 45 :: digits ∧ i = -digitsValue digits)

/-- A JSON text whose request.tablenum and successnum are the same integer. -/
def CompleteReply (tmp : List UInt8) : Prop :=
  ∃ e : ElementText, tmp = e.text ∧ Blanks e.before ∧ Blanks e.behind ∧
    ∃ request tablenum successnum i, HasMember e.value (bytes "request") request ∧
      HasMember request (bytes "tablenum") tablenum ∧
      HasMember e.value (bytes "successnum") successnum ∧ IntegerText tablenum i ∧
      IntegerText successnum i

theorem HasMember.json {object name value : List UInt8} (h : HasMember object name value) :
    JsonValue object := by
  obtain ⟨ms, rfl, members, m, inside, -⟩ := h
  exact .object (List.ne_nil_of_mem inside) members.names members.blanks members.values

theorem CompleteReply.json {tmp : List UInt8} (h : CompleteReply tmp) : JsonText tmp := by
  obtain ⟨e, text, before, behind, _, _, _, _, request, -⟩ := h
  exact ⟨e, text, before, behind, request.json⟩

end Replies

section Rounds

variable {body : List UInt8}

/-- The reply has two totals that are equal, and the row of the log has a length. -/
def Accepted (round : Round) : Prop :=
  ∃ tmp n, round.outcome = .answered tmp ∧ (jsonDecode tmp).status ≠ .threw ∧
    totals (jsonDecode tmp).value = some (n, n) ∧
    recordlog round.now actionPhotoSuccess tmp ≠ none

/-- A member is missing in what decode leaves of the reply. -/
def NullUsed (round : Round) : Prop :=
  ∃ tmp, round.outcome = .answered tmp ∧ (jsonDecode tmp).status ≠ .threw ∧
    totals (jsonDecode tmp).value = none

/-- The row of the log is too long in the catch block, too. -/
def Escapes (body : List UInt8) (round : Round) : Prop :=
  recordlog round.later actionPhotoFaild body = none ∧
    match round.outcome with
    | .failed => recordlog round.now actionPhotoFaild body = none
    | .answered tmp =>
        (jsonDecode tmp).status = .threw ∨
          ∃ a b, totals (jsonDecode tmp).value = some (a, b) ∧
            recordlog round.now (if b ≠ a then actionNumUnsuccess else actionPhotoSuccess) tmp = none

/-- The loop ends with this round. -/
def Stops (body : List UInt8) (round : Round) : Prop :=
  Accepted round ∨ NullUsed round ∨ Escapes body round

/-- The round of this index takes place. -/
def Attempted (body : List UInt8) (left : Nat) (rounds : Nat → Round) (i : Nat) : Prop :=
  i < left ∧ ∀ j < i, ¬ Stops body (rounds j)

/-- Some round takes place that is like this. -/
def Meets (body : List UInt8) (left : Nat) (rounds : Nat → Round) (P : Round → Prop) : Prop :=
  ∃ i, Attempted body left rounds i ∧ P (rounds i)

end Rounds

section Loop

variable {body : List UInt8} {left : Nat} {rounds : Nat → Round}

end Loop

end HZRobot.PhotoTask
