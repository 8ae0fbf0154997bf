import HZRobot.Transition
import Mathlib.Data.Fintype.Basic

/-!
CSerialPortImp::open and close over the table of descriptors that all objects share. The
world also remembers who opened a descriptor that is open, which the code does not.
-/

namespace HZRobot.SerialPort

/-- A CSerialPortImp; m_nPort is not set before the first open. -/
structure Object where
  m_nPort : Option (Fin 20)
  m_b_open : Bool
  deriving DecidableEq, Repr

inductive Event (Obj : Type) where
  /-- An open that returns FAIL, with the object before and after it. -/
  | failed (before after : Object)
  /-- A descriptor is closed, and who had opened it when it was open. -/
  | closed (fd : Nat) (opener : Option Obj)
  deriving DecidableEq, Repr

/-- -1 in fd_map is none. -/
structure World (Obj : Type) where
  fd_map : Fin 20 → Option Nat
  objects : Obj → Object
  opener : Nat → Option Obj
  events : List (Event Obj)

section Model

variable {Obj : Type} [DecidableEq Obj]

def start (Obj : Type) : World Obj where
  fd_map _ := none
  objects _ := ⟨none, false⟩
  opener _ := none
  events := []

def World.setObject (w : World Obj) (o : Obj) (object : Object) : World Obj :=
  { w with objects := Function.update w.objects o object }

/-- SerialOpen on behalf of an object, and whether it returns a descriptor; device is what
opening the device file gives. -/
def serialOpen (w : World Obj) (caller : Obj) (port : Fin 20) (device : Option Nat) :
    World Obj × Bool :=
  if w.fd_map port ≠ none then (w, false)
  else
    match device with
    | none => (w, false)
    | some fd =>
        ({ w with
          fd_map := Function.update w.fd_map port (some fd)
          opener := Function.update w.opener fd (some caller) }, true)

/-- CSerialPortImp::open. -/
def openPort (w : World Obj) (o : Obj) (nPort : Fin 20) (device : Option Nat) : World Obj :=
  let before := w.objects o
  let opened := serialOpen (w.setObject o { before with m_nPort := some nPort }) o nPort device
  if opened.2 then opened.1.setObject o { opened.1.objects o with m_b_open := true }
  else { opened.1 with events := .failed before (opened.1.objects o) :: opened.1.events }

/-- SerialClose, and whether it returns SERIAL_OK. -/
def serialClose (w : World Obj) (port : Fin 20) : World Obj × Bool :=
  match w.fd_map port with
  | none => (w, false)
  | some fd =>
      ({ w with
        fd_map := Function.update w.fd_map port none
        opener := Function.update w.opener fd none
        events := .closed fd (w.opener fd) :: w.events }, true)

/-- CSerialPortImp::close. -/
def closePort (w : World Obj) (o : Obj) : World Obj :=
  match w.objects o with
  | ⟨some port, true⟩ =>
      let closed := serialClose w port
      if closed.2 then closed.1.setObject o ⟨some port, false⟩ else closed.1
  | _ => w

inductive Action (Obj : Type) where
  | openPort (o : Obj) (nPort : Fin 20) (device : Option Nat)
  | closePort (o : Obj)
  deriving DecidableEq, Repr

/-- The system does not give out a descriptor that is open. -/
def step (w : World Obj) : Action Obj → Option (World Obj)
  | .openPort o nPort device =>
      if device.all fun fd => w.opener fd = none then some (openPort w o nPort device) else none
  | .closePort o => some (closePort w o)

end Model

section Property

variable {Obj : Type}

/-- The table has, at the object's port, a descriptor that the object opened and that is open. -/
def Owns (w : World Obj) (o : Obj) : Prop :=
  ∃ port fd, (w.objects o).m_nPort = some port ∧ w.fd_map port = some fd ∧ w.opener fd = some o

/-- A failing open leaves an object with an open port alone; what is closed is open. -/
def Event.Sound : Event Obj → Prop
  | .failed before after => before.m_b_open = true → after = before
  | .closed _ opener => opener ≠ none

structure Knows (w : World Obj) : Prop where
  owns : ∀ o, (w.objects o).m_b_open = true ↔ Owns w o
  sound : ∀ e ∈ w.events, e.Sound

/-- The table holds open descriptors, each at one port. -/
structure Table (w : World Obj) : Prop where
  live : ∀ port fd, w.fd_map port = some fd → w.opener fd ≠ none
  apart : ∀ port port' fd, w.fd_map port = some fd → w.fd_map port' = some fd → port = port'

/-- The open returns FAIL. -/
def Fails (w : World Obj) (nPort : Fin 20) (device : Option Nat) : Prop :=
  w.fd_map nPort ≠ none ∨ device = none

/-- An open that fails is for the port the object has open, or, when it has none, for a port
at which it has left no descriptor open. -/
def Keeps (w : World Obj) : Action Obj → Prop
  | .openPort o nPort device =>
      Fails w nPort device →
        if (w.objects o).m_b_open then (w.objects o).m_nPort = some nPort
        else ∀ fd, w.fd_map nPort = some fd → w.opener fd ≠ some o
  | .closePort _ => True

theorem table_start : Table (start Obj) where
  live _ _ h := by cases h
  apart _ _ _ h := by cases h

theorem knows_start : Knows (start Obj) where
  owns o := by
    constructor
    · intro isOpen
      cases isOpen
    · rintro ⟨port, fd, -, at_, -⟩
      cases at_
  sound e mem := by cases mem

/-- The descriptor at the port of an object that is open is its own. -/
theorem Knows.opener_of_open {w : World Obj} {o : Obj} {port : Fin 20} {fd : Nat} (knows : Knows w)
    (object : w.objects o = ⟨some port, true⟩) (here : w.fd_map port = some fd) :
    w.opener fd = some o := by
  obtain ⟨port', g, object', at_, opened⟩ := (knows.owns o).mp (by rw [object])
  rw [object] at object'
  cases object'
  rw [here] at at_
  cases at_
  exact opened

/-- What an open that fails leaves. -/
def World.afterFail [DecidableEq Obj] (w : World Obj) (o : Obj) (nPort : Fin 20) : World Obj :=
  { w.setObject o ⟨some nPort, (w.objects o).m_b_open⟩ with
    events := .failed (w.objects o) ⟨some nPort, (w.objects o).m_b_open⟩ :: w.events }

/-- What an open leaves that has got a descriptor. -/
def World.afterOpen [DecidableEq Obj] (w : World Obj) (o : Obj) (nPort : Fin 20) (fd : Nat) :
    World Obj :=
  { w with
    fd_map := Function.update w.fd_map nPort (some fd)
    opener := Function.update w.opener fd (some o)
    objects := Function.update w.objects o ⟨some nPort, true⟩ }

/-- What a close of the descriptor at a port leaves. -/
def World.afterClose [DecidableEq Obj] (w : World Obj) (o : Obj) (port : Fin 20) (fd : Nat) :
    World Obj where
  fd_map := Function.update w.fd_map port none
  objects := Function.update w.objects o ⟨some port, false⟩
  opener := Function.update w.opener fd none
  events := .closed fd (w.opener fd) :: w.events

end Property

section Steps

variable {Obj : Type} [DecidableEq Obj] {w : World Obj} {o : Obj} {nPort port : Fin 20} {fd : Nat}

theorem openPort_fails {device : Option Nat} (fails : Fails w nPort device) :
    openPort w o nPort device = w.afterFail o nPort := by
  have refused : serialOpen (w.setObject o ⟨some nPort, (w.objects o).m_b_open⟩) o nPort device =
      (w.setObject o ⟨some nPort, (w.objects o).m_b_open⟩, false) := by
    unfold serialOpen
    rcases fails with taken | rfl
    · exact if_pos taken
    · split <;> rfl
  simp only [openPort, refused, Bool.false_eq_true, if_false]
  simp only [World.afterFail, World.setObject, Function.update_self]

theorem openPort_succeeds (o : Obj) (free : w.fd_map nPort = none) :
    openPort w o nPort (some fd) = w.afterOpen o nPort fd := by
  have opened : serialOpen (w.setObject o ⟨some nPort, (w.objects o).m_b_open⟩) o nPort (some fd) =
      ({ w.setObject o ⟨some nPort, (w.objects o).m_b_open⟩ with
        fd_map := Function.update w.fd_map nPort (some fd)
        opener := Function.update w.opener fd (some o) }, true) := by
    unfold serialOpen
    exact if_neg (not_not.mpr free)
  simp only [openPort, opened, if_true]
  simp only [World.afterOpen, World.setObject, Function.update_self, Function.update_idem]

/-- close does nothing, or it closes the descriptor at the object's port. -/
theorem closePort_cases (w : World Obj) (o : Obj) :
    closePort w o = w ∨ ∃ port fd, w.objects o = ⟨some port, true⟩ ∧ w.fd_map port = some fd ∧
      closePort w o = w.afterClose o port fd := by
  unfold closePort
  split
  · case h_1 port here =>
      cases at_ : w.fd_map port with
      | none =>
          left
          simp [serialClose, at_]
      | some fd =>
          right
          refine ⟨port, fd, here, at_, ?_⟩
          simp [serialClose, at_, World.setObject, World.afterClose]
  · exact .inl rfl

/-- What an action that is taken does. -/
theorem step_cases {t : World Obj} {a : Action Obj} (h : step w a = some t) :
    (∃ o, a = .closePort o ∧ t = w) ∨
    (∃ o nPort device, a = .openPort o nPort device ∧ Fails w nPort device ∧
      t = w.afterFail o nPort) ∨
    (∃ o nPort fd, a = .openPort o nPort (some fd) ∧ w.fd_map nPort = none ∧ w.opener fd = none ∧
      t = w.afterOpen o nPort fd) ∨
    ∃ o port fd, a = .closePort o ∧ w.objects o = ⟨some port, true⟩ ∧ w.fd_map port = some fd ∧
      t = w.afterClose o port fd := by
  cases a with
  | openPort o nPort device =>
      right
      rw [step] at h
      split at h
      · case isTrue allowed =>
          obtain rfl := Option.some.inj h
          by_cases fails : Fails w nPort device
          · exact .inl ⟨o, nPort, device, rfl, fails, openPort_fails fails⟩
          · right
            left
            rw [Fails, not_or, not_not] at fails
            obtain ⟨fd, rfl⟩ := Option.ne_none_iff_exists'.mp fails.2
            exact ⟨o, nPort, fd, rfl, fails.1, by simpa using allowed, openPort_succeeds o fails.1⟩
      · cases h
  | closePort o =>
      obtain rfl := Option.some.inj h
      rcases closePort_cases w o with same | ⟨port, fd, object, here, closed⟩
      · exact .inl ⟨o, rfl, same⟩
      · exact .inr (.inr (.inr ⟨o, port, fd, rfl, object, here, closed⟩))

namespace Table

/-- A new descriptor at a free port. -/
theorem afterOpen (table : Table w) (fresh : w.opener fd = none) (o : Obj) (nPort : Fin 20) :
    Table (w.afterOpen o nPort fd) := by
  have other (port : Fin 20) (g : Nat) (at_ : w.fd_map port = some g) : g ≠ fd := by
    rintro rfl
    exact table.live port _ at_ fresh
  constructor
  · intro port g at_
    simp only [World.afterOpen, Function.update_apply] at at_ ⊢
    split
    · exact Option.some_ne_none _
    · case isFalse differs =>
        split at at_
        · exact absurd (Option.some.inj at_).symm differs
        · exact table.live port g at_
  · intro port port' g at_ at'
    simp only [World.afterOpen, Function.update_apply] at at_ at'
    split at at_
    · split at at'
      · case isTrue here there => exact here.trans there.symm
      · exact absurd (Option.some.inj at_).symm (other port' g at')
    · split at at'
      · exact absurd (Option.some.inj at').symm (other port g at_)
      · exact table.apart port port' g at_ at'

/-- A descriptor is taken out and closed. -/
theorem afterClose (table : Table w) (here : w.fd_map port = some fd) (o : Obj) :
    Table (w.afterClose o port fd) := by
  constructor
  · intro port' g at_
    simp only [World.afterClose, Function.update_apply] at at_ ⊢
    split at at_
    · cases at_
    · case isFalse differs =>
        rw [if_neg]
        · exact table.live port' g at_
        · rintro rfl
          exact differs (table.apart port' port g at_ here)
  · intro port' port'' g at_ at'
    simp only [World.afterClose, Function.update_apply] at at_ at'
    split at at_
    · cases at_
    · split at at'
      · cases at'
      · exact table.apart port' port'' g at_ at'

end Table

theorem table_step {t : World Obj} {a : Action Obj} (table : Table w) (h : step w a = some t) :
    Table t := by
  rcases step_cases h with ⟨o, -, rfl⟩ | ⟨o, nPort, device, -, -, rfl⟩ |
    ⟨o, nPort, fd, -, -, fresh, rfl⟩ | ⟨o, port, fd, -, -, here, rfl⟩
  · exact table
  · exact ⟨table.live, table.apart⟩
  · exact table.afterOpen fresh o nPort
  · exact table.afterClose here o

section Owners

/-- Who owns what after a successful open. -/
theorem Knows.afterOpen (knows : Knows w) (table : Table w) (o : Obj)
    (free : w.fd_map nPort = none) (fresh : w.opener fd = none) :
    Knows (w.afterOpen o nPort fd) := by
  refine ⟨fun o' => ?_, knows.sound⟩
  by_cases same : o' = o
  · subst same
    simp [Owns, World.afterOpen]
  · have owns := knows.owns o'
    simp only [Owns, World.afterOpen, Function.update_apply, same, if_false] at owns ⊢
    rw [owns]
    constructor
    · rintro ⟨port, g, object, at_, opened⟩
      have elsewhere : port ≠ nPort := by
        rintro rfl
        rw [free] at at_
        cases at_
      have other : g ≠ fd := by
        rintro rfl
        exact table.live port _ at_ fresh
      exact ⟨port, g, object, by rw [if_neg elsewhere, at_], by rw [if_neg other, opened]⟩
    · rintro ⟨port, g, object, at_, opened⟩
      split at opened
      · exact absurd (Option.some.inj opened).symm same
      · case isFalse other =>
          split at at_
          · exact absurd (Option.some.inj at_).symm other
          · exact ⟨port, g, object, at_, opened⟩

theorem Knows.afterClose (knows : Knows w) (table : Table w)
    (object : w.objects o = ⟨some port, true⟩) (here : w.fd_map port = some fd) :
    Knows (w.afterClose o port fd) := by
  have mine := knows.opener_of_open object here
  constructor
  · intro o'
    by_cases same : o' = o
    · subst same
      simp [Owns, World.afterClose]
    · have owns := knows.owns o'
      simp only [Owns, World.afterClose, Function.update_apply, same, if_false] at owns ⊢
      rw [owns]
      constructor
      · rintro ⟨port', g, object', at_, opened⟩
        have other : g ≠ fd := by
          rintro rfl
          rw [mine] at opened
          exact same (Option.some.inj opened).symm
        have elsewhere : port' ≠ port := by
          rintro rfl
          rw [here] at at_
          exact other (Option.some.inj at_).symm
        exact ⟨port', g, object', by rw [if_neg elsewhere, at_], by rw [if_neg other, opened]⟩
      · rintro ⟨port', g, object', at_, opened⟩
        split at at_
        · cases at_
        · split at opened
          · cases opened
          · exact ⟨port', g, object', at_, opened⟩
  · intro e mem
    rcases List.mem_cons.mp mem with rfl | earlier
    · exact table.live port fd here
    · exact knows.sound e earlier

/-- On an object with an open port a failing open is harmless for that port alone. -/
theorem knows_afterFail_open (knows : Knows w) (isOpen : (w.objects o).m_b_open = true) :
    Knows (w.afterFail o nPort) ↔ (w.objects o).m_nPort = some nPort := by
  constructor
  · intro after
    have kept : (⟨some nPort, (w.objects o).m_b_open⟩ : Object) = w.objects o :=
      after.sound _ List.mem_cons_self isOpen
    rw [← kept]
  · intro port
    have object : (⟨some nPort, (w.objects o).m_b_open⟩ : Object) = w.objects o := by
      rw [← port]
    rw [World.afterFail, object]
    refine ⟨fun o' => ?_, fun e mem => ?_⟩
    · simp only [Owns, World.setObject, Function.update_eq_self]
      exact knows.owns o'
    · rcases List.mem_cons.mp mem with rfl | earlier
      · exact fun _ => rfl
      · exact knows.sound e earlier

/-- Without an open port the object must have left nothing at the port of the failing open. -/
theorem knows_afterFail_closed (knows : Knows w) (isClosed : (w.objects o).m_b_open = false) :
    Knows (w.afterFail o nPort) ↔ ∀ fd, w.fd_map nPort = some fd → w.opener fd ≠ some o := by
  rw [World.afterFail, isClosed]
  constructor
  · intro after fd at_ mine
    have owned := (after.owns o).mpr ⟨nPort, fd, by simp [World.setObject], at_, mine⟩
    simp [World.setObject] at owned
  · intro nothing
    refine ⟨fun o' => ?_, fun e mem => ?_⟩
    · by_cases same : o' = o
      · subst same
        simp only [Owns, World.setObject, Function.update_self, Bool.false_eq_true, false_iff]
        rintro ⟨port, fd, object, at_, mine⟩
        cases object
        exact nothing fd at_ mine
      · have owns := knows.owns o'
        simp only [Owns, World.setObject, Function.update_of_ne same] at owns ⊢
        exact owns
    · rcases List.mem_cons.mp mem with rfl | earlier
      · intro opened
        rw [isClosed] at opened
        cases opened
      · exact knows.sound e earlier

/-- The condition decides for each step whether the objects still know their ports. -/
theorem knows_step_iff {t : World Obj} {a : Action Obj} (table : Table w) (knows : Knows w)
    (h : step w a = some t) : Knows t ↔ Keeps w a := by
  rcases step_cases h with ⟨o, rfl, rfl⟩ | ⟨o, nPort, device, rfl, fails, rfl⟩ |
    ⟨o, nPort, fd, rfl, free, fresh, rfl⟩ | ⟨o, port, fd, rfl, object, here, rfl⟩
  · exact iff_of_true knows trivial
  · have decided : Keeps w (.openPort o nPort device) ↔
        if (w.objects o).m_b_open then (w.objects o).m_nPort = some nPort
        else ∀ fd, w.fd_map nPort = some fd → w.opener fd ≠ some o :=
      ⟨fun keeps => keeps fails, fun kept _ => kept⟩
    rw [decided]
    cases isOpen : (w.objects o).m_b_open with
    | true =>
        rw [if_pos rfl]
        exact knows_afterFail_open knows isOpen
    | false =>
        rw [if_neg Bool.false_ne_true]
        exact knows_afterFail_closed knows isOpen
  · refine iff_of_true (knows.afterOpen table o free fresh) fun fails => ?_
    rcases fails with taken | none_
    · exact absurd free taken
    · cases none_
  · exact iff_of_true (knows.afterClose table object here) trivial

end Owners

end Steps

section Runs

variable {Obj : Type} [DecidableEq Obj]

/-- In a run the objects know their ports in every state exactly when every step meets the
condition. -/
theorem knows_throughout_iff {schedule : List (Action Obj)} {t : World Obj}
    (run : runs step (start Obj) schedule = some t) :
    Throughout step Knows (start Obj) schedule ↔ StepsMeet step Keeps (start Obj) schedule := by
  have preserved (w : World Obj) (a : Action Obj) (u : World Obj) (table : Table w)
      (h : step w a = some u) : Table u := table_step table h
  rw [throughout_and preserved (table_start)]
  refine throughout_iff_stepsMeet (fun w a u both h => ?_) run ⟨table_start, knows_start⟩
  rw [← knows_step_iff both.1 both.2 h]
  exact and_iff_right (table_step both.1 h)

/-- One object opens a port, closes it and opens another one. -/
def tidyRun : List (Action Unit) :=
  [.openPort () 3 (some 5), .closePort (), .openPort () 4 (some 5)]

theorem tidyRun_knows : Throughout step Knows (start Unit) tidyRun := by
  have run : runs step (start Unit) tidyRun =
      some ((runs step (start Unit) tidyRun).get (by decide)) := by simp
  refine (knows_throughout_iff run).mpr ⟨fun fails => ?_, fun w hw => ⟨trivial, fun v hv => ?_⟩⟩
  · exact absurd fails (by unfold Fails; decide)
  · obtain rfl := Option.some.inj hw
    obtain rfl := Option.some.inj hv
    exact ⟨fun fails => absurd fails (by unfold Fails; decide), fun _ _ => trivial⟩

/-- While port 3 is open the device of port 4 cannot be opened. -/
def secondPort : List (Action Unit) := [.openPort () 3 (some 5), .openPort () 4 none]

theorem secondPort_forgets :
    (runs step (start Unit) secondPort).isSome ∧
      ¬ Throughout step Knows (start Unit) secondPort := by
  refine ⟨by decide, fun all => ?_⟩
  have last : Knows _ := (all.2 _ rfl).2 _ rfl
  have kept := last.sound (.failed ⟨some 3, true⟩ ⟨some 4, true⟩) List.mem_cons_self rfl
  exact absurd kept (by decide)

end Runs

end HZRobot.SerialPort
