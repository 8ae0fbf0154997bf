import HZRobot.SerialLayout
import HZRobot.SerialRoundTrip

/-!
Decoding arbitrary bytes. Every read stays in the buffer, and the shifts are defined
exactly when no length or integer met on the way is too long. A record may run out of its
frame: its fields are decoded against the whole buffer, and the cursor is where the
last field ended.
-/

namespace HZRobot.Serial

open Varint

variable {data : List UInt8}

/-- The call reads below the length of the buffer, shifts by less than 64, and leaves
the cursor in the buffer when it returns true. -/
def Safe {α : Type} (data : List UInt8) (x : Decoded Event α) : Prop :=
  (∀ s e, .read s e ∈ x.log → e ≤ data.length) ∧ (∀ a, .shift a ∈ x.log → a < 64) ∧
    (x.status = .ok → x.pos ≤ data.length)

/-- As long as fields are decoded, the next one ends inside the frame. -/
def Contained (data : List UInt8) : Fields → Nat → Nat → Prop
  | .one field, stop, pos => ∀ p ∈ (layout data field).ends pos, p ≤ stop
  | .cons field rest, stop, pos => ∀ p ∈ (layout data field).ends pos,
      p ≤ stop ∧ (p < stop → Contained data rest stop p)

theorem layout_forward (fits : data.length ≤ maxSize) (t : Ty) {pos p : Nat}
    (inside : pos ≤ data.length) (ends : (layout data t).ends pos = some p) :
    pos ≤ p ∧ p ≤ data.length :=
  (follows_field fits t (fresh t) pos inside).forward p ends

/-- The fields stop at the end of the frame when they are contained, else behind it. -/
theorem fields_stop_iff (fits : data.length ≤ maxSize) (f : Fields) {flag size pos p : Nat}
    (behind : flag ≤ pos) (inside : pos ≤ data.length)
    (ends : (fieldsLayout data f flag size).ends pos = some p) :
    p = flag + size ↔ Contained data f (flag + size) pos := by
  match f with
  | .one field =>
      obtain ⟨q, stop, here⟩ := Option.map_eq_some_iff.mp ends
      have := layout_forward fits field inside stop
      have only : Contained data (.one field) (flag + size) pos ↔ q ≤ flag + size :=
        ⟨fun all => all q stop, fun le r hr => Option.mem_unique stop hr ▸ le⟩
      rw [only, ← here]
      split <;> omega
  | .cons field rest =>
      obtain ⟨q, stop, here⟩ := Option.bind_eq_some_iff.mp ends
      have forward := layout_forward fits field inside stop
      have only : Contained data (.cons field rest) (flag + size) pos ↔
          q ≤ flag + size ∧ (q < flag + size → Contained data rest (flag + size) q) :=
        ⟨fun all => all q stop, fun both r hr => Option.mem_unique stop hr ▸ both⟩
      rw [only]
      by_cases full : size ≤ q - flag
      · rw [if_pos full] at here
        cases here
        exact ⟨fun same => ⟨by omega, fun less => by omega⟩, fun both => by omega⟩
      · rw [if_neg full] at here
        rw [fields_stop_iff fits rest (by omega) forward.2 here]
        exact ⟨fun contained => ⟨by omega, fun _ => contained⟩, fun both => both.2 (by omega)⟩

/-- A length is only read inside the buffer. -/
theorem inside_of_size {pos n flag : Nat} (size : (decodeSize data pos).Returns n flag)
    (some_ : 0 < n) : pos < data.length := by
  by_contra outside
  obtain ⟨ok, value, -⟩ := size
  unfold decodeSize at ok value
  by_cases last : data.length < add64 pos 1
  · rw [if_pos last] at ok
    cases ok
  · rw [if_neg last] at value
    have none_ : byteAt data (pos + 0) = 0 := List.getD_eq_default _ _ (by omega)
    rw [varintLoop_stops (by rw [none_]; decide), none_] at value
    have start : (orGroup 7 false 0 (7 * 0) (0 : BitVec 64)).toNat = 0 := by decide
    have zero : n = 0 := value.symm.trans start
    omega

/-- A record that decodes to true ends at the end of its frame and reads nothing behind
it exactly when its fields are contained. -/
theorem record_contained_iff (fits : data.length ≤ maxSize) (f : Fields) (x : FieldVals f)
    {pos n flag : Nat} (size : (decodeSize data pos).Returns n flag) (some_ : 0 < n)
    (ok : (decodeField data (.struct f) x pos).status = .ok) :
    ((decodeField data (.struct f) x pos).pos = flag + n ∧
      ∀ s e, .read s e ∈ (decodeField data (.struct f) x pos).log → e ≤ flag + n) ↔
      Contained data f (flag + n) flag := by
  have inside := inside_of_size size some_
  have tracks := follows_field fits (.struct f) x pos (Nat.le_of_lt inside)
  have prefix_ := follows_size fits pos (Nat.le_of_lt inside)
  obtain ⟨sized, value, at_⟩ := size
  have stop : varintEnd data pos = some flag := by
    have same := prefix_.stop_eq
    rw [Decoded.stop, if_pos sized, at_] at same
    exact same.symm
  have ends : (Layout.struct data (fieldsLayout data f)).ends pos =
      some (decodeField data (.struct f) x pos).pos := by
    have same := tracks.stop_eq
    rw [Decoded.stop, if_pos ok] at same
    exact same.symm
  have frame : (Layout.struct data (fieldsLayout data f)).ends pos =
      (Layout.frame data (fieldsLayout data f) n).ends flag := by
    refine (if_neg (by omega)).trans ?_
    show (varintEnd data pos).bind _ = _
    rw [stop, value]
    rfl
  have fields : (fieldsLayout data f flag n).ends flag =
      some (decodeField data (.struct f) x pos).pos := by
    have whole : (Layout.frame data (fieldsLayout data f) n).ends flag =
        if n = 0 then some flag
        else if data.length - flag < n then none
        else (fieldsLayout data f flag n).ends flag := rfl
    rw [frame, whole, if_neg (by omega)] at ends
    split at ends
    · cases ends
    · exact ends
  rw [← fields_stop_iff fits f (Nat.le_refl _) (prefix_.forward flag stop).2 fields]
  refine ⟨fun both => both.1, fun same => ⟨same, fun s e read => ?_⟩⟩
  have below := (tracks.reads s e read).2 _ ends
  omega

/-- A frame of one byte, a string of five. -/
def overlongRecord : List UInt8 := [1, 5, 97, 98, 99, 100, 101]

theorem overlongRecord_size : (decodeSize overlongRecord 0).Returns 1 1 := by
  have bytes : sizeBytes 1 = [1] := groupBytes_last (by decide)
  have size := decodeSize_returns (n := 1) (by decide) [] [5, 97, 98, 99, 100, 101]
    (by rw [bytes]; decide)
  rw [bytes] at size
  exact size

theorem overlongRecord_string :
    (decodeField overlongRecord .string (fresh .string) 1).Returns
      ([97, 98, 99, 100, 101] : List UInt8) 7 := by
  have bytes : sizeBytes 5 = [5] := groupBytes_last (by decide)
  have text : encodeString [97, 98, 99, 100, 101] [] = [5, 97, 98, 99, 100, 101] := by
    rw [encodeString_eq, List.length_cons, List.length_cons, List.length_cons, List.length_cons,
      List.length_singleton, bytes]
    rfl
  have fits : overlongRecord.length ≤ maxSize := by decide
  have string := restores_string fits [] [97, 98, 99, 100, 101] [1] [] (by rw [text]; rfl)
  rw [text] at string
  exact string

theorem overlongRecord_decoded :
    (decodeField overlongRecord (.struct (.one .string)) (fresh .string) 0).Returns
      ([97, 98, 99, 100, 101] : List UInt8) 7 := by
  show (decodeStruct (decodeLastField (decodeString overlongRecord)) overlongRecord [] 0).Returns _ 7
  rw [decodeStruct, if_neg (by decide)]
  refine overlongRecord_size.andThen ?_
  rw [if_neg (by decide), if_neg (by decide)]
  exact overlongRecord_string.andThen ⟨rfl, rfl, by decide⟩

theorem overlongRecord_leaves_frame :
    ¬ ∀ (data : List UInt8) (f : Fields) (x : FieldVals f) (pos n flag : Nat),
      data.length ≤ maxSize → (decodeSize data pos).Returns n flag → 0 < n →
      (decodeField data (.struct f) x pos).status = .ok →
      (decodeField data (.struct f) x pos).pos = flag + n ∧
        ∀ s e, .read s e ∈ (decodeField data (.struct f) x pos).log → e ≤ flag + n := by
  intro all
  obtain ⟨ok, -, pos⟩ := overlongRecord_decoded
  have ends := (all overlongRecord (.one .string) (fresh .string) 0 1 1 (by decide)
    overlongRecord_size (by decide) ok).1
  exact absurd (pos.symm.trans ends) (by decide)

/-- Its string ends at 7, and the frame at 2. -/
theorem overlongRecord_not_contained :
    ¬ ((decodeField overlongRecord (.struct (.one .string)) (fresh .string) 0).pos = 1 + 1 ∧
      ∀ s e, .read s e ∈ (decodeField overlongRecord (.struct (.one .string)) (fresh .string) 0).log →
        e ≤ 1 + 1) := by
  rw [record_contained_iff (by decide) (.one .string) (fresh .string) overlongRecord_size
    (by decide) overlongRecord_decoded.1]
  intro contained
  have fits : overlongRecord.length ≤ maxSize := by decide
  have tracks := follows_field fits .string (fresh .string) 1 (by decide)
  obtain ⟨ok, -, pos⟩ := overlongRecord_string
  have stop : (decodeField overlongRecord .string (fresh .string) 1).stop = some 7 := by
    rw [Decoded.stop, if_pos ok, pos]
  exact absurd (contained 7 (tracks.stop_eq.symm.trans stop)) (by decide)

end HZRobot.Serial
