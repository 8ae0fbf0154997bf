import Mathlib.Data.Finmap
import Mathlib.Data.Fintype.Basic

/-!
Field types of the serialization library and their values. A container that looks
its elements up is the set of its elements or entries; in which order it iterates is
left open. Floating values are opaque bytes.
-/

namespace HZRobot.Serial

inductive IntKind where
  | short | unsignedShort | int | unsignedInt | long | unsignedLong | longLong | unsignedLongLong
  deriving DecidableEq, Repr

def IntKind.width : IntKind → Nat
  | .short | .unsignedShort => 16
  | .int | .unsignedInt => 32
  | .long | .unsignedLong | .longLong | .unsignedLongLong => 64

def IntKind.signed : IntKind → Bool
  | .short | .int | .long | .longLong => true
  | .unsignedShort | .unsignedInt | .unsignedLong | .unsignedLongLong => false

inductive FloatKind where
  | float | double | longDouble
  deriving DecidableEq, Repr

def FloatKind.size : FloatKind → Nat
  | .float => 4
  | .double => 8
  | .longDouble => 16

/-- The containers that are resized and then assigned. -/
inductive SequenceKind where
  | vector | deque | list
  deriving DecidableEq, Repr

/-- map and set, unordered_map and unordered_set. -/
inductive LookupKind where
  | ordered | unordered
  deriving DecidableEq, Repr

mutual

/-- char also stands for unsigned char. -/
inductive Ty where
  | bool
  | char
  | integer (kind : IntKind)
  | floating (kind : FloatKind)
  | string
  | map (kind : LookupKind) (key value : Ty)
  | sequence (kind : SequenceKind) (element : Ty)
  | forwardList (element : Ty)
  | set (kind : LookupKind) (element : Ty)
  | struct (fields : Fields)

inductive Fields where
  | one (field : Ty)
  | cons (field : Ty) (rest : Fields)

end

mutual

def Val : Ty → Type
  | .bool => Bool
  | .char => UInt8
  | .integer kind => BitVec kind.width
  | .floating kind => Fin kind.size → UInt8
  | .string => List UInt8
  | .map _ key value => Finmap fun _ : Val key => Val value
  | .sequence _ element => List (Val element)
  | .forwardList element => List (Val element)
  | .set _ element => Finset (Val element)
  | .struct fields => FieldVals fields

def FieldVals : Fields → Type
  | .one field => Val field
  | .cons field rest => Val field × FieldVals rest

end

mutual

def Val.decEq : (t : Ty) → DecidableEq (Val t)
  | .bool => inferInstanceAs (DecidableEq Bool)
  | .char => inferInstanceAs (DecidableEq UInt8)
  | .integer kind => inferInstanceAs (DecidableEq (BitVec kind.width))
  | .floating kind => inferInstanceAs (DecidableEq (Fin kind.size → UInt8))
  | .string => inferInstanceAs (DecidableEq (List UInt8))
  | .map _ key value =>
      letI := Val.decEq key
      letI := Val.decEq value
      inferInstanceAs (DecidableEq (Finmap fun _ : Val key => Val value))
  | .sequence _ element =>
      letI := Val.decEq element
      inferInstanceAs (DecidableEq (List (Val element)))
  | .forwardList element =>
      letI := Val.decEq element
      inferInstanceAs (DecidableEq (List (Val element)))
  | .set _ element =>
      letI := Val.decEq element
      inferInstanceAs (DecidableEq (Finset (Val element)))
  | .struct fields => FieldVals.decEq fields

def FieldVals.decEq : (f : Fields) → DecidableEq (FieldVals f)
  | .one field => Val.decEq field
  | .cons field rest =>
      letI := Val.decEq field
      letI := FieldVals.decEq rest
      inferInstanceAs (DecidableEq (Val field × FieldVals rest))

end

instance (t : Ty) : DecidableEq (Val t) := Val.decEq t

mutual

/-- A freshly constructed object. -/
def fresh : (t : Ty) → Val t
  | .bool => false
  | .char => (0 : UInt8)
  | .integer kind => (0 : BitVec kind.width)
  | .floating kind => fun _ : Fin kind.size => (0 : UInt8)
  | .string => ([] : List UInt8)
  | .map _ key value => (∅ : Finmap fun _ : Val key => Val value)
  | .sequence _ element => ([] : List (Val element))
  | .forwardList element => ([] : List (Val element))
  | .set _ element => (∅ : Finset (Val element))
  | .struct fields => freshFields fields

def freshFields : (f : Fields) → FieldVals f
  | .one field => fresh field
  | .cons field rest => (fresh field, freshFields rest)

end

/-- The order in which the containers are iterated. -/
structure Iteration where
  elements : ∀ (_ : LookupKind) (t : Ty), Finset (Val t) → List (Val t)
  entries : ∀ (_ : LookupKind) (key value : Ty),
    (Finmap fun _ : Val key => Val value) → List (Sigma fun _ : Val key => Val value)
  elements_eq : ∀ kind t s, (elements kind t s : Multiset (Val t)) = s.val
  entries_eq : ∀ kind key value m, (entries kind key value m : Multiset _) = m.entries

end HZRobot.Serial
