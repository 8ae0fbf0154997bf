import HZRobot.HttpForward
import HZRobot.JsonFields
import HZRobot.MysqlLogs

/-!
The /robot/tips branch of handle_request, which starts a mission. The body is decoded
outside the try block and the result of decode is ignored; the ACTION member is used
without a test for null, and a null pointer is no exception.
-/

namespace HZRobot.Http
open Config Json MysqlLogs

inductive Ending where
  | returned
  | threw
  | nullUse
  deriving DecidableEq, Repr

inductive Effect where
  | logged (text : List UInt8)
  | started
  | responded (status : Nat) (body : List UInt8)
  deriving DecidableEq, Repr

structure Handled where
  ending : Ending
  effects : List Effect
  deriving DecidableEq, Repr

/-- The bytes of a text of the source. -/
def utf8 (s : String) : List UInt8 := s.toList.flatMap String.utf8EncodeChar

def actionPost : List UInt8 := utf8 "收到POST请求"

def marks (mode : Int) : List UInt8 := utf8 "接收到任务类型：" ++ signedDecimal mode

/-- The try block behind the lookup of ACTION. -/
def mission (now : Tm) (file : Option (List XmlNode)) (config : PhotoConfig) (mode : Int) :
    Handled :=
  match recordlog now actionPost (marks mode) with
  | none => ⟨.threw, []⟩
  | some text =>
      if mode = 1 then
        match loadphotoConfig file config with
        | .returned _ _ => ⟨.returned, [.logged text, .started]⟩
        | .nullUse _ => ⟨.nullUse, [.logged text]⟩
      else if mode = 2 ∨ mode = 3 then ⟨.returned, [.logged text, .started]⟩
      else ⟨.returned, [.logged text]⟩

/-- The catch block and comm_response behind it. -/
def Handled.respond (h : Handled) : Handled :=
  if h.ending = .nullUse then h else ⟨.returned, h.effects ++ [.responded 200 []]⟩

def robotTips (now : Tm) (file : Option (List XmlNode)) (config : PhotoConfig) (req : Incoming) :
    Handled :=
  if req.content_type ≠ bytes "application/json" then
    ⟨.returned, [.responded 400 (bytes "error request")]⟩
  else
    let json := jsonDecode req.body
    if json.status = .threw then ⟨.threw, []⟩
    else
      match findKvChild json.value (bytes "ACTION") with
      | none => ⟨.nullUse, []⟩
      | some action => (mission now file config (atoi action.value)).respond

/-- The modes run_photo, run_pick_sound and run_pick_temperature. -/
def isMode (mode : Int) : Bool := mode = 1 || mode = 2 || mode = 3

/-- The body decodes as an object whose ACTION is a mode. -/
def MissionBody (body : List UInt8) : Prop :=
  (jsonDecode body).status = .ok ∧
    ∃ action, findKvChild (jsonDecode body).value (bytes "ACTION") = some action ∧
      isMode (atoi action.value) = true

def Handled.responses (h : Handled) : Nat :=
  h.effects.countP fun effect => effect matches .responded _ _

def Handled.starts (h : Handled) : Nat := h.effects.count .started

/-- One response, no null pointer used, no exception, and one mission exactly for a body
that asks for one. -/
def HandledTotally (body : List UInt8) (h : Handled) : Prop :=
  h.ending = .returned ∧ h.responses = 1 ∧ (MissionBody body → h.starts = 1) ∧
    (¬ MissionBody body → h.starts = 0)

/-- decode does not throw and leaves an ACTION, which is no mode when decode fails, and
the file of run_photo can be loaded. -/
def Understood (file : Option (List XmlNode)) (body : List UInt8) : Prop :=
  (jsonDecode body).status ≠ .threw ∧
    ∃ action, findKvChild (jsonDecode body).value (bytes "ACTION") = some action ∧
      ((jsonDecode body).status = .failed → isMode (atoi action.value) = false) ∧
      (atoi action.value = 1 → ∀ doc, file = some doc → CompleteRows (tableRows doc))

/-- The numbers that a date prints are ints. -/
def IntTm (now : Tm) : Prop :=
  ∀ i ∈ [now.tm_year + 1900, now.tm_mon + 1, now.tm_mday, now.tm_hour, now.tm_min, now.tm_sec],
    i.natAbs ≤ 2 ^ 31

instance IntTm.decidable (now : Tm) : Decidable (IntTm now) :=
  inferInstanceAs (Decidable (∀ i ∈ [now.tm_year + 1900, now.tm_mon + 1, now.tm_mday, now.tm_hour,
    now.tm_min, now.tm_sec], i.natAbs ≤ 2 ^ 31))

theorem signedDecimal_length {i : Int} (int : i.natAbs ≤ 2 ^ 31) :
    (signedDecimal i).length ≤ 11 := by
  have digits : (decimal i.natAbs).length ≤ 10 := by
    rw [decimal, List.length_map, Nat.length_toDigits_le_iff (by decide) (by decide)]
    omega
  unfold signedDecimal
  split
  · rw [List.length_cons]
    omega
  · omega

theorem atoi_int (s : List UInt8) : (atoi s).natAbs ≤ 2 ^ 31 := by
  unfold atoi toInt32
  omega

theorem date_length {now : Tm} (int : IntTm now) : (date now).length ≤ 71 := by
  have number (i : Int) (inside : i ∈ [now.tm_year + 1900, now.tm_mon + 1, now.tm_mday,
      now.tm_hour, now.tm_min, now.tm_sec]) : (signedDecimal i).length ≤ 11 :=
    signedDecimal_length (int i inside)
  have year := number (now.tm_year + 1900) (by simp)
  have mon := number (now.tm_mon + 1) (by simp)
  have mday := number now.tm_mday (by simp)
  have hour := number now.tm_hour (by simp)
  have min := number now.tm_min (by simp)
  have sec := number now.tm_sec (by simp)
  simp only [date, List.length_append, List.length_singleton]
  omega

/-- A row that is far from 2^31 bytes is printed. -/
theorem recordlog_short {now : Tm} (int : IntTm now) {action remarks : List UInt8}
    (short : action.length + remarks.length ≤ 2 ^ 30) :
    ∃ text, recordlog now action remarks = some text := by
  have date_ := date_length int
  have fits : (formatRow (date now) action remarks).length < 2 ^ 31 := by
    have quotes : (bytes "('").length = 2 ∧ (bytes "', '").length = 4 ∧
        (bytes "') ").length = 3 := by decide
    have a := cstr_length_le (date now)
    have b := cstr_length_le action
    have c := cstr_length_le remarks
    simp only [formatRow, List.length_append, quotes]
    omega
  exact ⟨_, if_pos fits⟩

/-- The log of a mission is short enough to be printed. -/
theorem recordlog_mission {now : Tm} (int : IntTm now) {mode : Int} (small : mode.natAbs ≤ 2 ^ 31) :
    ∃ text, recordlog now actionPost (marks mode) = some text := by
  have action : actionPost.length ≤ 16 := by decide
  have remarks : (marks mode).length ≤ 24 + 11 := by
    have word : (utf8 "接收到任务类型：").length ≤ 24 := by decide
    have digits := signedDecimal_length small
    rw [marks, List.length_append]
    omega
  exact recordlog_short int (by omega)

/-- What a mission leaves, once it is logged. -/
theorem mission_respond {now : Tm} {mode : Int} {text : List UInt8}
    (logged : recordlog now actionPost (marks mode) = some text) (file : Option (List XmlNode))
    (config : PhotoConfig) :
    (mission now file config mode).respond =
      if mode = 1 ∧ (loadphotoConfig file config).isNull = true then
        ⟨.nullUse, [.logged text]⟩
      else if isMode mode = true then ⟨.returned, [.logged text, .started, .responded 200 []]⟩
      else ⟨.returned, [.logged text, .responded 200 []]⟩ := by
  unfold mission
  rw [logged]
  by_cases photo : mode = 1
  · subst photo
    cases load : loadphotoConfig file config with
    | returned ok c => rfl
    | nullUse c => rfl
  · have safe : ¬ (mode = 1 ∧ (loadphotoConfig file config).isNull = true) := fun h => photo h.1
    dsimp only
    rw [if_neg photo, if_neg safe]
    by_cases other : mode = 2 ∨ mode = 3
    · have isMode_ : isMode mode = true := by
        rcases other with rfl | rfl <;> rfl
      rw [if_pos other, if_pos isMode_]
      rfl
    · have noMode : ¬ isMode mode = true := by
        simpa [isMode, photo] using other
      rw [if_neg other, if_neg noMode]
      rfl

/-- The branch handles a body as it should exactly when it understands it. -/
theorem robotTips_total_iff (now : Tm) (int : IntTm now) (file : Option (List XmlNode))
    (config : PhotoConfig) (req : Incoming) (type : req.content_type = bytes "application/json") :
    HandledTotally req.body (robotTips now file config req) ↔ Understood file req.body := by
  rw [robotTips, if_neg (not_not.mpr type)]
  dsimp only
  by_cases threw : (jsonDecode req.body).status = .threw
  · rw [if_pos threw]
    exact iff_of_false (fun h => by cases h.1) fun h => h.1 threw
  rw [if_neg threw]
  cases found : findKvChild (jsonDecode req.body).value (bytes "ACTION") with
  | none =>
      refine iff_of_false (fun h => by cases h.1) fun h => ?_
      obtain ⟨action, here, -⟩ := h.2
      rw [found] at here
      cases here
  | some action =>
      obtain ⟨text, logged⟩ := recordlog_mission int (atoi_int action.value)
      have asks : MissionBody req.body ↔
          (jsonDecode req.body).status = .ok ∧ isMode (atoi action.value) = true := by
        refine and_congr_right fun _ => ⟨?_, fun mode => ⟨action, found, mode⟩⟩
        rintro ⟨other, here, mode⟩
        rw [found] at here
        cases here
        exact mode
      have understood : Understood file req.body ↔
          ((jsonDecode req.body).status = .failed → isMode (atoi action.value) = false) ∧
            (atoi action.value = 1 → (loadphotoConfig file config).isNull = false) := by
        rw [loadphotoConfig_isNull]
        constructor
        · rintro ⟨-, other, here, rest⟩
          rw [found] at here
          cases here
          exact rest
        · exact fun rest => ⟨threw, action, found, rest⟩
      rw [understood]
      dsimp only
      rw [mission_respond logged]
      split
      · case isTrue crash =>
          refine iff_of_false (fun h => by cases h.1) fun h => ?_
          rw [h.2 crash.1] at crash
          cases crash.2
      · case isFalse safe =>
          have loads : atoi action.value = 1 → (loadphotoConfig file config).isNull = false :=
            fun photo => Bool.eq_false_iff.mpr fun null => safe ⟨photo, null⟩
          split
          · case isTrue mode =>
              have one : Handled.starts ⟨.returned, [.logged text, .started, .responded 200 []]⟩ =
                  1 := rfl
              have status : (jsonDecode req.body).status = .ok ↔
                  ((jsonDecode req.body).status = .failed → isMode (atoi action.value) = false) := by
                rw [mode]
                cases whole : (jsonDecode req.body).status with
                | ok => simp
                | failed => simp
                | threw => exact absurd whole threw
              rw [← status, and_iff_left loads]
              constructor
              · intro h
                by_contra failed
                have none_ := h.2.2.2 fun asked => failed asked.1
                rw [one] at none_
                cases none_
              · exact fun ok => ⟨rfl, rfl, fun _ => one, fun other => absurd (asks.mpr ⟨ok, mode⟩) other⟩
          · case isFalse noMode =>
              refine iff_of_true ⟨rfl, rfl, fun asked => ?_, fun _ => rfl⟩
                ⟨fun _ => Bool.eq_false_iff.mpr noMode, loads⟩
              exact absurd (asks.mp asked).2 noMode

/-- The text of an object whose ACTION is 2. -/
def missionRequest : Incoming where
  method := .post
  target := bytes "/robot/tips"
  content_type := bytes "application/json"
  body := bytes "\x7b\"ACTION\":\"2\"\x7d"

theorem missionRequest_total :
    HandledTotally missionRequest.body
      (robotTips ⟨120, 8, 9, 10, 0, 0⟩ none ⟨0, []⟩ missionRequest) :=
  (robotTips_total_iff ⟨120, 8, 9, 10, 0, 0⟩ (by decide) none ⟨0, []⟩ missionRequest rfl).mpr
    ⟨by decide, _, rfl, fun failed => absurd failed (by decide), fun _ doc none_ => by cases none_⟩

/-- An object without ACTION. -/
def emptyRequest : Incoming := { missionRequest with body := bytes "\x7b\x7d" }

theorem emptyRequest_uses_null :
    ¬ ∀ (now : Tm) (file : Option (List XmlNode)) (config : PhotoConfig) (req : Incoming),
      IntTm now → req.content_type = bytes "application/json" →
        HandledTotally req.body (robotTips now file config req) := by
  intro all
  have h := all ⟨120, 8, 9, 10, 0, 0⟩ none ⟨0, []⟩ emptyRequest (by decide) rfl
  have null : (robotTips ⟨120, 8, 9, 10, 0, 0⟩ none ⟨0, []⟩ emptyRequest).ending = .nullUse := rfl
  have returned := h.1
  rw [null] at returned
  cases returned

end HZRobot.Http
