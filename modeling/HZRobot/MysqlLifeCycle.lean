import HZRobot.Mysql

/-!
Life cycle of handles and result sets. One record of all calls carries the
invariant: each call finds its handle open and its result set live, the
connection pointer is the one open handle, and between operations no result set
is live but those of parses whose answers did not belong together.
-/

namespace HZRobot.Mysql

def IsOpen (calls : List Call) (h : Nat) : Prop :=
  .init (some h) ∈ calls ∧ .close (some h) ∉ calls

def IsLive (calls : List Call) (r : Nat) : Prop :=
  (∃ conn, .storeResult conn (some r) ∈ calls) ∧ .freeResult r ∉ calls

/-- A call after the calls before it: its handle is open, its result set is
live, and what it returns carries its own number. -/
def Permitted (earlier : List Call) (c : Call) : Prop :=
  (∀ conn, c.handle = some conn → ∃ h, conn = some h ∧ IsOpen earlier h) ∧
  (∀ r, c.resultSet = some r → IsLive earlier r) ∧
  (∀ h, c = .init (some h) → h = earlier.length) ∧
  (∀ conn r, c = .storeResult conn (some r) → r = earlier.length)

/-- The whole record, latest call first. -/
def LifeCycle : List Call → Prop
  | [] => True
  | c :: earlier => Permitted earlier c ∧ LifeCycle earlier

def Connected (calls : List Call) (h : Nat) : Prop :=
  ∃ host user password database port unixSocket flags, .realConnect (some h) host user
    password database port unixSocket flags true ∈ calls

/-- The last open built the handle: it came from mysql_init, was connected and
got its commit mode; no later call starts another handle or closes one. -/
def Built (calls : List Call) (h : Nat) : Prop :=
  ∃ later mode earlier, calls = later ++ .autocommit (some h) mode false :: earlier ∧
    .init (some h) ∈ earlier ∧ Connected earlier h ∧
    ∀ c ∈ later, (∀ g, c ≠ .init g) ∧ ∀ g, c ≠ .close g

/-- From these calls on mysql_fetch_row answers null after at most nrow rows, each
with as many values as there are columns. -/
def RowsFit (lib : Library) (ncolumn res nrow : Nat) (calls : List Call) : Prop :=
  ∃ n ≤ nrow, lib.fetchRow (List.replicate n (.fetchRow res) ++ calls) = none ∧
    ∀ k < n, ∃ row, lib.fetchRow (List.replicate k (.fetchRow res) ++ calls) = some row ∧
      ncolumn ≤ row.length

/-- The answers to a parse that starts after these calls belong together. -/
structure Fitting (lib : Library) (res : Nat) (calls : List Call) : Prop where
  count : (lib.numRows (.numFields res :: calls)).toNat ≤ maxRows
  names : (lib.numFields calls).toNat ≤
    (lib.fetchFields (.numRows res :: .numFields res :: calls)).length
  values : RowsFit lib (lib.numFields calls).toNat res
    (lib.numRows (.numFields res :: calls)).toNat
    (.fetchFields res :: .numRows res :: .numFields res :: calls)

/-- Every parse, which starts with its call of mysql_num_fields, got answers that
belong together. -/
def Fitted (lib : Library) (calls : List Call) : Prop :=
  ∀ later res earlier, calls = later ++ .numFields res :: earlier → Fitting lib res earlier

def Issued (_ : List Call) (_ : Nat) : Prop := True

section
variable (lib : Library) (leaked : List Nat)

/-- The invariant; pending is the result set an operation holds, leaked are those
left behind, one for each parse whose answers do not belong together. -/
structure Valid (pending : Option Nat) (w : World) : Prop where
  cycle : LifeCycle w.calls
  conn : ∀ h, IsOpen w.calls h ↔ w.conn = some h
  live : ∀ r, IsLive w.calls r ↔ pending = some r ∨ r ∈ leaked
  fitted : Fitted lib w.calls ↔ leaked = []

/-- The object holds the handle, and its record has the property. -/
def Working (pending : Option Nat) (K : List Call → Nat → Prop) (h : Nat) (w : World) : Prop :=
  Valid lib leaked pending w ∧ w.conn = some h ∧ K w.calls h

def Idle (w : World) : Prop := Valid lib leaked none w ∧ w.conn = none

def Ready (w : World) : Prop := ∃ h, Working lib leaked none Built h w

/-- Between the operations: no handle, or the one the last open built. -/
def Stable (w : World) : Prop := Idle lib leaked w ∨ Ready lib leaked w

/-- What open finds after its call of mysql_init. -/
def Started (r : Option Nat) (w : World) : Prop :=
  (r = none ∧ Idle lib leaked w) ∨ ∃ h, r = some h ∧ Working lib leaked none Issued h w

/-- After the operations that need a connection. -/
def Answered (ok : Bool) (w : World) : Prop :=
  (ok = true ∧ Ready lib leaked w) ∨ (ok = false ∧ Stable lib leaked w)

/-- After select: its parse, if any, ended with a value, or left a result set. -/
def Selected (out : Ending Bool) (w : World) : Prop :=
  ((∃ ok, out = .value ok) ∧ Stable lib leaked w) ∨
    ∃ r, (∀ ok, out ≠ .value ok) ∧ Stable lib (r :: leaked) w

/-- What an operation, and so a run, may add to the leaked result sets. -/
def Grown (ending : Prop) (w : World) : Prop :=
  ∃ more, Stable lib (more ++ leaked) w ∧ (ending → more ≠ [])

end

/-- A call that neither issues nor ends anything, and starts no parse. -/
def Call.Plain (c : Call) : Prop :=
  (∀ g, c ≠ .init g) ∧ (∀ g, c ≠ .close g) ∧ (∀ conn r, c ≠ .storeResult conn (some r)) ∧
    (∀ r, c ≠ .freeResult r) ∧ ∀ r, c ≠ .numFields r

theorem issued_lt {calls : List Call} {h : Nat} (cycle : LifeCycle calls)
    (issued : .init (some h) ∈ calls) : h < calls.length := by
  induction calls with
  | nil => cases issued
  | cons c earlier ih =>
      rcases List.mem_cons.mp issued with here | before
      · have := cycle.1.2.2.1 h here.symm
        simp [this]
      · have := ih cycle.2 before
        simp only [List.length_cons]
        omega

theorem stored_lt {calls : List Call} {conn : Option Nat} {r : Nat} (cycle : LifeCycle calls)
    (stored : .storeResult conn (some r) ∈ calls) : r < calls.length := by
  induction calls with
  | nil => cases stored
  | cons c earlier ih =>
      rcases List.mem_cons.mp stored with here | before
      · have := cycle.1.2.2.2 conn r here.symm
        simp [this]
      · have := ih cycle.2 before
        simp only [List.length_cons]
        omega

theorem closed_issued {calls : List Call} {h : Nat} (cycle : LifeCycle calls)
    (closed : .close (some h) ∈ calls) : .init (some h) ∈ calls := by
  induction calls with
  | nil => cases closed
  | cons c earlier ih =>
      rcases List.mem_cons.mp closed with rfl | before
      · obtain ⟨g, hg, isOpen⟩ := cycle.1.1 _ rfl
        cases hg
        exact List.mem_cons_of_mem _ isOpen.1
      · exact List.mem_cons_of_mem _ (ih cycle.2 before)

theorem freed_stored {calls : List Call} {r : Nat} (cycle : LifeCycle calls)
    (freed : .freeResult r ∈ calls) : ∃ conn, .storeResult conn (some r) ∈ calls := by
  induction calls with
  | nil => cases freed
  | cons c earlier ih =>
      rcases List.mem_cons.mp freed with rfl | before
      · obtain ⟨conn, stored⟩ := (cycle.1.2.1 r rfl).1
        exact ⟨conn, List.mem_cons_of_mem _ stored⟩
      · obtain ⟨conn, stored⟩ := ih cycle.2 before
        exact ⟨conn, List.mem_cons_of_mem _ stored⟩

theorem close_count_le {calls : List Call} (cycle : LifeCycle calls) (h : Nat) :
    calls.count (.close (some h)) ≤ 1 := by
  induction calls with
  | nil => simp
  | cons c earlier ih =>
      by_cases here : c = .close (some h)
      · subst here
        obtain ⟨g, hg, -, notClosed⟩ := cycle.1.1 _ rfl
        cases hg
        simp [List.count_eq_zero_of_not_mem notClosed]
      · simpa [here] using ih cycle.2

theorem free_count_le {calls : List Call} (cycle : LifeCycle calls) (r : Nat) :
    calls.count (.freeResult r) ≤ 1 := by
  induction calls with
  | nil => simp
  | cons c earlier ih =>
      by_cases here : c = .freeResult r
      · subst here
        have notFreed := (cycle.1.2.1 r rfl).2
        simp [List.count_eq_zero_of_not_mem notFreed]
      · simpa [here] using ih cycle.2

theorem Built.isOpen {calls : List Call} {h : Nat} (cycle : LifeCycle calls)
    (built : Built calls h) : IsOpen calls h := by
  obtain ⟨later, mode, earlier, rfl, -, -, quiet⟩ := built
  induction later with
  | nil =>
      obtain ⟨g, hg, issued, notClosed⟩ := cycle.1.1 _ rfl
      cases hg
      exact ⟨by simp [issued], by simp [notClosed]⟩
  | cons c later ih =>
      obtain ⟨issued, notClosed⟩ := ih cycle.2 fun d hd => quiet d (by simp [hd])
      have := (quiet c (by simp)).2 (some h)
      exact ⟨List.mem_cons_of_mem _ issued, by simpa [this.symm] using notClosed⟩

theorem Built.cons {calls : List Call} {h : Nat} {c : Call} (built : Built calls h)
    (plain : (∀ g, c ≠ .init g) ∧ ∀ g, c ≠ .close g) : Built (c :: calls) h := by
  obtain ⟨later, mode, earlier, rfl, issued, connected, quiet⟩ := built
  refine ⟨c :: later, mode, earlier, rfl, issued, connected, ?_⟩
  intro d hd
  rcases List.mem_cons.mp hd with rfl | hd
  · exact plain
  · exact quiet d hd

theorem isOpen_cons {calls : List Call} {c : Call} {h : Nat} (noInit : ∀ g, c ≠ .init g)
    (noClose : ∀ g, c ≠ .close g) : IsOpen (c :: calls) h ↔ IsOpen calls h := by
  simp [IsOpen, (noInit _).symm, (noClose _).symm]

theorem isLive_cons {calls : List Call} {c : Call} {r : Nat}
    (noStore : ∀ conn r, c ≠ .storeResult conn (some r)) (noFree : ∀ r, c ≠ .freeResult r) :
    IsLive (c :: calls) r ↔ IsLive calls r := by
  simp [IsLive, fun conn => (noStore conn r).symm, (noFree r).symm]

theorem fitted_cons {lib : Library} {calls : List Call} {c : Call}
    (noParse : ∀ r, c ≠ .numFields r) : Fitted lib (c :: calls) ↔ Fitted lib calls := by
  constructor
  · rintro fitted later res earlier rfl
    exact fitted (c :: later) res earlier rfl
  · intro fitted later res earlier split
    cases later with
    | nil =>
        injection split with here
        exact absurd here (noParse res)
    | cons d later =>
        injection split with _ rest
        exact fitted later res earlier rest

theorem fitted_numFields {lib : Library} {calls : List Call} {r : Nat} :
    Fitted lib (.numFields r :: calls) ↔ Fitting lib r calls ∧ Fitted lib calls := by
  constructor
  · intro fitted
    refine ⟨fitted [] r calls rfl, ?_⟩
    rintro later res earlier rfl
    exact fitted (.numFields r :: later) res earlier rfl
  · rintro ⟨fits, fitted⟩ later res earlier split
    cases later with
    | nil =>
        cases split
        exact fits
    | cons d later =>
        injection split with _ rest
        exact fitted later res earlier rest

section
variable {lib : Library} {leaked : List Nat} {pending : Option Nat}

theorem Valid.plain {w : World} {c : Call} (v : Valid lib leaked pending w)
    (plain : c.Plain) (handle : ∀ conn, c.handle = some conn → conn = w.conn ∧ w.conn.isSome)
    (results : ∀ r, c.resultSet = some r → pending = some r ∨ r ∈ leaked) :
    Valid lib leaked pending { w with calls := c :: w.calls } := by
  obtain ⟨noInit, noClose, noStore, noFree, noParse⟩ := plain
  refine ⟨⟨⟨?_, ?_, ?_, ?_⟩, v.cycle⟩, ?_, ?_, (fitted_cons noParse).trans v.fitted⟩
  · intro conn hconn
    obtain ⟨rfl, some_⟩ := handle conn hconn
    obtain ⟨h, hh⟩ := Option.isSome_iff_exists.mp some_
    exact ⟨h, hh, (v.conn h).mpr hh⟩
  · intro r hr
    exact (v.live r).mpr (results r hr)
  · intro h hc
    exact absurd hc (noInit _)
  · intro conn r hc
    exact absurd hc (noStore conn r)
  · intro h
    rw [isOpen_cons noInit noClose]
    exact v.conn h
  · intro r
    rw [isLive_cons noStore noFree]
    exact v.live r

end

/-- A property of the record that calls other than init and close keep. -/
def Kept (K : List Call → Nat → Prop) : Prop :=
  ∀ calls h c, (∀ g, c ≠ .init g) → (∀ g, c ≠ .close g) → K calls h → K (c :: calls) h

theorem kept_issued : Kept Issued := fun _ _ _ _ _ _ => trivial

theorem kept_connected : Kept Connected := by
  rintro calls h c - - ⟨host, user, password, database, port, unixSocket, flags, mem⟩
  exact ⟨host, user, password, database, port, unixSocket, flags, List.mem_cons_of_mem _ mem⟩

theorem kept_built : Kept Built := fun _ _ _ noInit noClose built => built.cons ⟨noInit, noClose⟩

section
variable {lib : Library} {leaked : List Nat} {pending : Option Nat} {K : List Call → Nat → Prop}
  {h : Nat}

theorem getConn_working : Triple (Working lib leaked pending K h) getConn fun conn w =>
    conn = some h ∧ Working lib leaked pending K h w :=
  fun _ hw => ⟨hw.2.1, hw⟩

theorem bind_getConn {α : Type} {k : Option Nat → Program α} {Q : α → World → Prop}
    (hk : Triple (Working lib leaked pending K h) (k (some h)) Q) :
    Triple (Working lib leaked pending K h) (getConn >>= k) Q := by
  refine Triple.bind getConn_working fun conn => Triple.assume ?_
  rintro rfl
  exact hk

theorem bind_getConn_idle {α : Type} {k : Option Nat → Program α} {Q : α → World → Prop}
    (hk : Triple (Idle lib leaked) (k none) Q) : Triple (Idle lib leaked) (getConn >>= k) Q := by
  refine Triple.bind (R := fun conn w => conn = none ∧ Idle lib leaked w) (fun _ hw => ⟨hw.2, hw⟩)
    fun conn => Triple.assume ?_
  rintro rfl
  exact hk

theorem setConn_spec {P : World → Prop} (conn : Option Nat) :
    Triple (fun w => P { w with conn := conn }) (setConn conn) fun _ => P :=
  fun _ hw => hw

theorem Working.plain {w : World} {c : Call} (hw : Working lib leaked pending K h w) (kept : Kept K)
    (plain : c.Plain) (handle : c.handle = some (some h) ∨ c.handle = none)
    (results : ∀ r, c.resultSet = some r → pending = some r ∨ r ∈ leaked) :
    Working lib leaked pending K h { w with calls := c :: w.calls } := by
  obtain ⟨v, conn, k⟩ := hw
  refine ⟨v.plain plain ?_ results, conn, kept _ _ _ plain.1 plain.2.1 k⟩
  intro g hg
  rcases handle with here | absent
  · rw [here] at hg
    cases hg
    exact ⟨conn.symm, by simp [conn]⟩
  · rw [absent] at hg
    cases hg

theorem record_working {c : Call} (kept : Kept K) (plain : c.Plain)
    (handle : c.handle = some (some h) ∨ c.handle = none)
    (results : ∀ r, c.resultSet = some r → pending = some r ∨ r ∈ leaked) :
    Triple (Working lib leaked pending K h) (record c) fun _ => Working lib leaked pending K h :=
  fun _ hw => hw.plain kept plain handle results

theorem ask_working {α : Type} {answer : List Call → α} {c : α → Call} (kept : Kept K)
    (plain : ∀ a, (c a).Plain) (handle : ∀ a, (c a).handle = some (some h))
    (results : ∀ a, (c a).resultSet = none) :
    Triple (Working lib leaked pending K h) (ask answer c)
      fun _ => Working lib leaked pending K h :=
  fun _ hw => hw.plain kept (plain _) (.inl (handle _)) (by simp [results])

theorem setTimeout_working (kept : Kept K) (timeout : Nat) (options : List MysqlOption) :
    Triple (Working lib leaked pending K h) (setTimeout timeout options)
      fun _ => Working lib leaked pending K h := by
  refine Triple.ite (fun _ => ?_) fun _ =>
    Triple.pure (Q := fun _ => Working lib leaked pending K h) _
  refine bind_getConn ?_
  refine Triple.forM fun o _ => record_working kept ?_ (.inl rfl) ?_
  · simp [Call.Plain]
  · simp [Call.resultSet]

theorem close_valid {w : World} (hw : Working lib leaked none K h w) :
    Idle lib leaked { conn := none, calls := .close (some h) :: w.calls } := by
  obtain ⟨v, conn, -⟩ := hw
  have isOpen : IsOpen w.calls h := (v.conn h).mpr conn
  refine ⟨⟨⟨⟨?_, ?_, ?_, ?_⟩, v.cycle⟩, ?_, ?_, (fitted_cons (by simp)).trans v.fitted⟩, rfl⟩
  · rintro _ ⟨⟩
    exact ⟨h, rfl, isOpen⟩
  · rintro r ⟨⟩
  · rintro g ⟨⟩
  · rintro g r ⟨⟩
  · intro g
    refine ⟨?_, fun no => nomatch no⟩
    rintro ⟨issued, notClosed⟩
    simp only [List.mem_cons, reduceCtorEq, false_or, Call.close.injEq, Option.some.injEq,
      not_or] at issued notClosed
    have := (v.conn g).mp ⟨issued, notClosed.2⟩
    rw [conn] at this
    cases this
    exact absurd rfl notClosed.1
  · intro r
    rw [isLive_cons (by simp) (by simp)]
    exact v.live r

theorem idle_init {w : World} (idle : Idle lib leaked w) :
    Working lib leaked none Issued w.calls.length
      { conn := some w.calls.length, calls := .init (some w.calls.length) :: w.calls } := by
  obtain ⟨v, conn⟩ := idle
  refine ⟨⟨⟨⟨?_, ?_, ?_, ?_⟩, v.cycle⟩, ?_, ?_, (fitted_cons (by simp)).trans v.fitted⟩, rfl,
    trivial⟩
  · rintro _ ⟨⟩
  · rintro r ⟨⟩
  · rintro g ⟨⟩
    rfl
  · rintro g r ⟨⟩
  · intro g
    have closed : ¬ IsOpen w.calls g := by
      rw [v.conn g, conn]
      simp
    constructor
    · rintro ⟨issued, notClosed⟩
      rcases List.mem_cons.mp issued with here | before
      · cases here
        rfl
      · exact absurd ⟨before, fun c => notClosed (List.mem_cons_of_mem _ c)⟩ closed
    · rintro ⟨⟩
      refine ⟨by simp, ?_⟩
      intro c
      have old := closed_issued v.cycle (by simpa using c)
      exact absurd (issued_lt v.cycle old) (Nat.lt_irrefl _)
  · intro r
    rw [isLive_cons (by simp) (by simp)]
    exact v.live r

theorem idle_noInit {w : World} (idle : Idle lib leaked w) :
    Idle lib leaked { conn := none, calls := .init none :: w.calls } := by
  obtain ⟨v, conn⟩ := idle
  refine ⟨⟨⟨⟨?_, ?_, ?_, ?_⟩, v.cycle⟩, ?_, ?_, (fitted_cons (by simp)).trans v.fitted⟩, rfl⟩
  · rintro _ ⟨⟩
  · rintro r ⟨⟩
  · rintro g ⟨⟩
  · rintro g r ⟨⟩
  · intro g
    have := v.conn g
    rw [conn] at this
    rw [← this]
    simp [IsOpen]
  · intro r
    rw [isLive_cons (by simp) (by simp)]
    exact v.live r

theorem Stable.grown {w : World} {ending : Prop} (h : Stable lib leaked w) (ends : ¬ ending) :
    Grown lib leaked ending w :=
  ⟨[], h, fun e => absurd e ends⟩

theorem giveUp_spec : Triple (Working lib leaked none K h) giveUp fun ok w =>
    ok = false ∧ Idle lib leaked w := by
  refine bind_getConn ?_
  refine Triple.bind (R := fun _ w => Idle lib leaked { w with conn := none })
    (fun w hw => close_valid hw) fun _ => ?_
  refine Triple.bind (setConn_spec none) fun _ => ?_
  exact fun _ hw => ⟨rfl, hw⟩

theorem close_working : Triple (Working lib leaked none K h) close fun _ => Idle lib leaked := by
  refine bind_getConn ?_
  refine Triple.ite (fun _ => ?_) fun no => absurd rfl no
  refine bind_getConn ?_
  refine Triple.bind (R := fun _ w => Idle lib leaked { w with conn := none })
    (fun w hw => close_valid hw) fun _ => ?_
  refine Triple.bind (setConn_spec none) fun _ => ?_
  exact Triple.pure (Q := fun _ => Idle lib leaked) _

theorem close_idle : Triple (Idle lib leaked) close fun _ => Idle lib leaked := by
  refine bind_getConn_idle ?_
  refine Triple.ite (fun yes => nomatch yes) fun _ => ?_
  exact Triple.pure (Q := fun _ => Idle lib leaked) _

theorem store_working {w : World} (hw : Working lib leaked none Built h w) :
    Working lib leaked (some w.calls.length) Built h
      { w with calls := .storeResult (some h) (some w.calls.length) :: w.calls } := by
  obtain ⟨v, conn, built⟩ := hw
  refine ⟨⟨⟨⟨?_, ?_, ?_, ?_⟩, v.cycle⟩, ?_, ?_, (fitted_cons (by simp)).trans v.fitted⟩, conn,
    built.cons (by simp)⟩
  · rintro _ ⟨⟩
    exact ⟨h, rfl, (v.conn h).mpr conn⟩
  · rintro r ⟨⟩
  · rintro g ⟨⟩
  · rintro _ r ⟨⟩
    rfl
  · intro g
    rw [isOpen_cons (by simp) (by simp)]
    exact v.conn g
  · intro r
    have before : IsLive w.calls r ↔ r ∈ leaked := by
      rw [v.live r]
      simp
    constructor
    · rintro ⟨⟨g, stored⟩, notFreed⟩
      rcases List.mem_cons.mp stored with here | old
      · cases here
        exact .inl rfl
      · exact .inr (before.mp ⟨⟨g, old⟩, fun f => notFreed (List.mem_cons_of_mem _ f)⟩)
    · rintro (⟨⟨⟩⟩ | old)
      · refine ⟨⟨some h, by simp⟩, ?_⟩
        intro f
        obtain ⟨g, old⟩ := freed_stored v.cycle (by simpa using f)
        exact absurd (stored_lt v.cycle old) (Nat.lt_irrefl _)
      · obtain ⟨⟨g, stored⟩, notFreed⟩ := before.mpr old
        exact ⟨⟨g, List.mem_cons_of_mem _ stored⟩, by simpa using notFreed⟩

theorem live_permitted {w : World} {r : Nat} (v : Valid lib leaked pending w)
    (live : pending = some r ∨ r ∈ leaked) : Permitted w.calls (.numFields r) := by
  refine ⟨?_, ?_, ?_, ?_⟩
  · rintro _ ⟨⟩
  · rintro q ⟨⟩
    exact (v.live r).mpr live
  · rintro g ⟨⟩
  · rintro _ q ⟨⟩

/-- The first call of a parse with answers that belong together. -/
theorem Working.numFields {w : World} {r : Nat} (hw : Working lib leaked (some r) K h w)
    (kept : Kept K) (fits : Fitting lib r w.calls) :
    Working lib leaked (some r) K h { w with calls := .numFields r :: w.calls } := by
  obtain ⟨v, conn, k⟩ := hw
  refine ⟨⟨⟨live_permitted v (.inl rfl), v.cycle⟩, ?_, ?_, ?_⟩, conn,
    kept _ _ _ (by simp) (by simp) k⟩
  · intro g
    rw [isOpen_cons (by simp) (by simp)]
    exact v.conn g
  · intro q
    rw [isLive_cons (by simp) (by simp)]
    exact v.live q
  · rw [fitted_numFields, ← v.fitted]
    exact and_iff_right fits

/-- The first call of any other parse: nothing will free its result set. -/
theorem Working.abandoned {w : World} {r : Nat} (hw : Working lib leaked (some r) K h w)
    (kept : Kept K) (fits : ¬ Fitting lib r w.calls) :
    Working lib (r :: leaked) none K h { w with calls := .numFields r :: w.calls } := by
  obtain ⟨v, conn, k⟩ := hw
  refine ⟨⟨⟨live_permitted v (.inl rfl), v.cycle⟩, ?_, ?_, ?_⟩, conn,
    kept _ _ _ (by simp) (by simp) k⟩
  · intro g
    rw [isOpen_cons (by simp) (by simp)]
    exact v.conn g
  · intro q
    rw [isLive_cons (by simp) (by simp), v.live q]
    simp [eq_comm]
  · rw [fitted_numFields]
    simp [fits]

theorem free_working {w : World} {r : Nat} (kept : Kept K) (new : r ∉ leaked)
    (hw : Working lib leaked (some r) K h w) :
    Working lib leaked none K h { w with calls := .freeResult r :: w.calls } := by
  obtain ⟨v, conn, k⟩ := hw
  refine ⟨⟨⟨⟨?_, ?_, ?_, ?_⟩, v.cycle⟩, ?_, ?_, (fitted_cons (by simp)).trans v.fitted⟩, conn,
    kept _ _ _ (by simp) (by simp) k⟩
  · rintro _ ⟨⟩
  · rintro q ⟨⟩
    exact (v.live r).mpr (.inl rfl)
  · rintro g ⟨⟩
  · rintro _ q ⟨⟩
  · intro g
    rw [isOpen_cons (by simp) (by simp)]
    exact v.conn g
  · intro q
    constructor
    · rintro ⟨stored, notFreed⟩
      simp only [List.mem_cons, reduceCtorEq, false_or, Call.freeResult.injEq, not_or]
        at stored notFreed
      rcases (v.live q).mp ⟨stored, notFreed.2⟩ with here | old
      · cases here
        exact absurd rfl notFreed.1
      · exact .inr old
    · rintro (no | old)
      · cases no
      · obtain ⟨⟨g, stored⟩, notFreed⟩ := (v.live q).mpr (.inr old)
        have other : q ≠ r := fun same => new (same ▸ old)
        exact ⟨⟨g, List.mem_cons_of_mem _ stored⟩, by simp [other, notFreed]⟩

end

theorem Ending.of_forget {α : Type} {e : Ending α} (h : e.forget = .undefined) :
    e = .undefined := by
  cases e with
  | value a => cases h
  | thrown => cases h
  | undefined => rfl

section
variable (lib : Library) (info : ConnectInfo) {leaked : List Nat} {K : List Call → Nat → Prop}
  {h : Nat}

theorem mysqlInit_spec : Triple (Idle lib leaked) (mysqlInit lib) fun r w =>
    Started lib leaked r { w with conn := r } := by
  intro w idle
  simp only [mysqlInit, ask]
  split
  · exact .inr ⟨_, rfl, idle_init idle⟩
  · exact .inl ⟨rfl, idle_noInit idle⟩

theorem ask_realConnect (host : Option (List UInt8)) (user password database : List UInt8)
    (port : Nat) (unixSocket : Option (List UInt8)) (flags : Nat) :
    Triple (Working lib leaked none Issued h)
      (ask lib.realConnect
        (.realConnect (some h) host user password database port unixSocket flags))
      fun ok w => (ok = true ∧ Working lib leaked none Connected h w) ∨
        (ok = false ∧ Working lib leaked none Issued h w) := by
  intro w hw
  obtain ⟨v, conn, -⟩ := hw.plain
    (c := .realConnect (some h) host user password database port unixSocket flags
      (lib.realConnect w.calls)) kept_issued (by simp [Call.Plain]) (.inl rfl)
    (by simp [Call.resultSet])
  cases answer : lib.realConnect w.calls with
  | false => exact .inr ⟨answer, v, conn, trivial⟩
  | true =>
      refine .inl ⟨answer, v, conn, host, user, password, database, port, unixSocket, flags, ?_⟩
      simp [ask, answer]

theorem realConnect_spec :
    Triple (Working lib leaked none Issued h) (realConnect lib info) fun ok w =>
    (ok = true ∧ Working lib leaked none Connected h w) ∨
      (ok = false ∧ Working lib leaked none Issued h w) := by
  refine bind_getConn ?_
  split
  · exact ask_realConnect lib _ _ _ _ _ _ _
  · exact ask_realConnect lib _ _ _ _ _ _ _

theorem setCharset_spec (kept : Kept K) :
    Triple (Working lib leaked none K h) (setCharset lib info)
      fun _ => Working lib leaked none K h := by
  refine Triple.ite (fun _ => Triple.pure (Q := fun _ => Working lib leaked none K h) _)
    fun _ => ?_
  refine bind_getConn ?_
  refine Triple.bind (ask_working kept ?_ (fun _ => rfl) fun _ => rfl) fun failed => ?_
  · simp [Call.Plain]
  · refine Triple.ite (fun _ => ?_) fun _ =>
      Triple.pure (Q := fun _ => Working lib leaked none K h) _
    refine bind_getConn ?_
    exact record_working kept (by simp [Call.Plain]) (.inl rfl) (by simp [Call.resultSet])

/-- The last call of open. -/
theorem autocommit_spec (mode : Bool) : Triple (Working lib leaked none Connected h)
    (ask lib.autocommit (.autocommit (some h) mode)) fun failed w =>
      (failed = true ∧ Working lib leaked none Connected h w) ∨
        (failed = false ∧ Ready lib leaked w) := by
  intro w hw
  obtain ⟨v, conn, connected⟩ := hw.plain
    (c := .autocommit (some h) mode (lib.autocommit w.calls)) kept_connected
    (by simp [Call.Plain]) (.inl rfl) (by simp [Call.resultSet])
  cases answer : lib.autocommit w.calls with
  | true => exact .inl ⟨answer, v, conn, connected⟩
  | false =>
      refine .inr ⟨answer, h, v, conn, [], mode, w.calls, ?_, ?_, hw.2.2, by simp⟩
      · simp [ask, answer]
      · exact ((hw.1.conn h).mpr hw.2.1).1

theorem connectHandle_spec : Triple (Working lib leaked none Issued h) (connectHandle lib info)
    fun ok w => (ok = true ∧ Ready lib leaked w) ∨ (ok = false ∧ Idle lib leaked w) := by
  refine Triple.bind (setTimeout_working kept_issued _ _) fun _ => ?_
  refine Triple.bind (setTimeout_working kept_issued _ _) fun _ => ?_
  refine bind_getConn ?_
  refine Triple.bind (record_working kept_issued (by simp [Call.Plain]) (.inl rfl)
    (by simp [Call.resultSet])) fun _ => ?_
  refine Triple.bind (realConnect_spec lib info) fun connected => Triple.cases ?_ ?_
  · refine Triple.assume fun yes => ?_
    rw [if_pos yes]
    refine Triple.bind (setCharset_spec lib info kept_connected) fun _ => ?_
    refine bind_getConn ?_
    refine Triple.bind (autocommit_spec lib _) fun failed => Triple.cases ?_ ?_
    · refine Triple.assume fun failure => ?_
      rw [if_pos failure]
      exact giveUp_spec.consequence (fun _ hw => hw) fun _ _ hw => .inr hw
    · refine Triple.assume fun success => ?_
      rw [if_neg (by simp [success])]
      exact fun _ hw => .inl ⟨rfl, hw⟩
  · refine Triple.assume fun no => ?_
    rw [if_neg (by simp [no])]
    exact giveUp_spec.consequence (fun _ hw => hw) fun _ _ hw => .inr hw

theorem openConn_idle : Triple (Idle lib leaked) (openConn lib info)
    fun ok w => (ok = true ∧ Ready lib leaked w) ∨ (ok = false ∧ Idle lib leaked w) := by
  refine bind_getConn_idle ?_
  refine Triple.ite (fun yes => nomatch yes) fun _ => ?_
  refine Triple.bind (mysqlInit_spec lib) fun r => ?_
  refine Triple.bind (setConn_spec r) fun _ => Triple.cases ?_ (Triple.exists fun h => ?_)
  · refine Triple.assume fun none_ => ?_
    refine bind_getConn_idle ?_
    exact fun _ hw => .inr ⟨rfl, hw⟩
  · refine Triple.assume fun some_ => ?_
    refine bind_getConn ?_
    exact connectHandle_spec lib info

theorem openConn_working : Triple (Working lib leaked none K h) (openConn lib info)
    fun ok w => ok = true ∧ Working lib leaked none K h w := by
  refine bind_getConn ?_
  exact fun _ hw => ⟨rfl, hw⟩

theorem openConn_stable : Triple (Stable lib leaked) (openConn lib info) (Answered lib leaked) := by
  refine Triple.cases ?_ (Triple.exists fun h => ?_)
  · refine (openConn_idle lib info).consequence (fun _ hw => hw) ?_
    rintro ok w (⟨yes, ready⟩ | ⟨no, idle⟩)
    · exact .inl ⟨yes, ready⟩
    · exact .inr ⟨no, .inl idle⟩
  · exact (openConn_working lib info).consequence (fun _ hw => hw)
      fun _ _ hw => .inl ⟨hw.1, h, hw.2⟩

theorem close_stable : Triple (Stable lib leaked) close fun _ => Idle lib leaked :=
  Triple.cases close_idle (Triple.exists fun _ => close_working)

theorem mysqlQuery_spec (kept : Kept K) (sql : List UInt8) :
    Triple (Working lib leaked none K h) (mysqlQuery lib (some h) sql)
      fun _ => Working lib leaked none K h :=
  ask_working kept (by simp [Call.Plain]) (fun _ => rfl) fun _ => rfl

theorem mysqlErrno_spec (kept : Kept K) :
    Triple (Working lib leaked none K h) (mysqlErrno lib (some h))
      fun _ => Working lib leaked none K h :=
  ask_working kept (by simp [Call.Plain]) (fun _ => rfl) fun _ => rfl

theorem mysqlAffectedRows_spec (kept : Kept K) :
    Triple (Working lib leaked none K h) (mysqlAffectedRows lib (some h))
      fun _ => Working lib leaked none K h :=
  ask_working kept (by simp [Call.Plain]) (fun _ => rfl) fun _ => rfl

theorem request_spec (sql : List UInt8) :
    Triple (Stable lib leaked) (request lib info sql) (Answered lib leaked) := by
  refine Triple.cases ?_ (Triple.exists fun h => ?_)
  · refine bind_getConn_idle ?_
    exact fun _ hw => .inr ⟨rfl, .inl hw⟩
  refine bind_getConn ?_
  refine Triple.ite (fun no => nomatch no) fun _ => bind_getConn ?_
  refine Triple.bind (mysqlQuery_spec lib kept_built sql) fun failed => ?_
  refine Triple.ite (fun _ => bind_getConn ?_) fun _ _ hw => .inl ⟨rfl, h, hw⟩
  refine Triple.bind (mysqlErrno_spec lib kept_built) fun errnum => ?_
  refine Triple.ite (fun _ => bind_getConn ?_) fun _ => ?_
  · refine Triple.bind (record_working kept_built (by simp [Call.Plain]) (.inl rfl)
      (by simp [Call.resultSet])) fun _ => ?_
    exact fun _ hw => .inr ⟨rfl, .inr ⟨h, hw⟩⟩
  -- The server has gone: the second attempt starts from a new handle.
  · refine Triple.bind close_working fun _ => ?_
    refine Triple.bind (openConn_idle lib info) fun opened => Triple.cases ?_ ?_
    · refine Triple.assume fun yes => Triple.exists fun g => ?_
      rw [if_pos yes]
      refine bind_getConn (Triple.bind (mysqlQuery_spec lib kept_built sql) fun again => ?_)
      cases again with
      | true => exact fun _ hw => .inr ⟨rfl, .inr ⟨g, hw⟩⟩
      | false => exact fun _ hw => .inl ⟨rfl, g, hw⟩
    · refine Triple.assume fun no => ?_
      rw [if_neg (by simp [no])]
      exact fun _ hw => .inr ⟨rfl, .inl hw⟩

theorem noResult_spec : Triple (Working lib leaked none Built h) (noResult lib) fun ok w =>
    ok = false ∧ Stable lib leaked w := by
  refine bind_getConn (Triple.bind (mysqlErrno_spec lib kept_built) fun errnum => ?_)
  refine Triple.ite (fun _ => ?_) fun _ => fun _ hw => ⟨rfl, .inr ⟨h, hw⟩⟩
  refine Triple.bind close_working fun _ => ?_
  exact fun _ hw => ⟨rfl, .inl hw⟩

theorem mysqlStoreResult_spec : Triple (Working lib leaked none Built h)
    (mysqlStoreResult lib (some h)) fun r w => (r = none ∧ Working lib leaked none Built h w) ∨
      ∃ q, r = some q ∧ Working lib leaked (some q) Built h w ∧ q ∉ leaked := by
  intro w hw
  cases answer : lib.storeResult w.calls with
  | false =>
      refine .inl ⟨by simp [mysqlStoreResult, ask, answer], ?_⟩
      have kept := hw.plain (c := .storeResult (some h) none) kept_built (by simp [Call.Plain])
        (.inl rfl) (by simp [Call.resultSet])
      simpa [mysqlStoreResult, ask, answer] using kept
  | true =>
      refine .inr ⟨w.calls.length, by simp [mysqlStoreResult, ask, answer], ?_, ?_⟩
      · simpa [mysqlStoreResult, ask, answer] using store_working hw
      · intro old
        obtain ⟨⟨g, stored⟩, -⟩ := (hw.1.live _).mpr (.inr old)
        exact absurd (stored_lt hw.1.cycle stored) (Nat.lt_irrefl _)

/-- A call that reads a result set, the one an operation holds or a leaked one. -/
theorem read_working {α : Type} {answer : List Call → α} {pending : Option Nat} {r : Nat}
    {c : Call} (kept : Kept K) (live : pending = some r ∨ r ∈ leaked) (plain : c.Plain)
    (handle : c.handle = none) (result : c.resultSet = some r) :
    Triple (Working lib leaked pending K h) (ask answer fun _ => c)
      fun _ => Working lib leaked pending K h := by
  refine fun _ hw => hw.plain kept plain (.inr handle) ?_
  intro q hq
  rw [result] at hq
  cases hq
  exact live

theorem fetchRows_spec {pending : Option Nat} {r : Nat} (kept : Kept K)
    (live : pending = some r ∨ r ∈ leaked) (ncolumn : Nat) (slots : List (List (List UInt8))) :
    Triple (Working lib leaked pending K h) (fetchRows lib ncolumn r slots)
      fun _ => Working lib leaked pending K h := by
  have fetch : Triple (Working lib leaked pending K h) (mysqlFetchRow lib r) fun _ =>
      Working lib leaked pending K h := read_working lib kept live (by simp [Call.Plain]) rfl rfl
  induction slots with
  | nil =>
      refine Triple.bind fetch fun row => Triple.ite (fun _ => ?_) fun _ => ?_
      · exact Triple.pure (Q := fun _ => Working lib leaked pending K h) _
      · exact Triple.pure (Q := fun _ => Working lib leaked pending K h) _
  | cons old slots ih =>
      refine Triple.bind fetch fun row => ?_
      cases row with
      | none => exact Triple.pure (Q := fun _ => Working lib leaked pending K h) _
      | some row =>
          refine Triple.ite (fun _ => ?_) fun _ => Triple.bind ih fun rest => ?_
          · exact Triple.pure (Q := fun _ => Working lib leaked pending K h) _
          · exact Triple.pure (Q := fun _ => Working lib leaked pending K h) _

/-- From its first call on parse only reads the result set. -/
theorem parse_reads {pending : Option Nat} {r : Nat} {P : World → Prop} (kept : Kept K)
    (live : pending = some r ∨ r ∈ leaked)
    (start : Triple P (mysqlNumFields lib r) fun _ => Working lib leaked pending K h)
    (result : DbResult) :
    Triple P (parse lib result r) fun _ => Working lib leaked pending K h := by
  have read {α : Type} {answer : List Call → α} {c : Call} (plain : c.Plain)
      (handle : c.handle = none) (result : c.resultSet = some r) :
      Triple (Working lib leaked pending K h) (ask answer fun _ => c)
        fun _ => Working lib leaked pending K h :=
    read_working lib kept live plain handle result
  refine Triple.bind start fun ncolumn => ?_
  refine Triple.bind (read (by simp [Call.Plain]) rfl rfl) fun nrow => ?_
  refine Triple.ite (fun _ => ?_) fun _ => ?_
  · exact Triple.pure (Q := fun _ => Working lib leaked pending K h) _
  refine Triple.bind (read (by simp [Call.Plain]) rfl rfl) fun fields => ?_
  refine Triple.ite (fun _ => ?_) fun _ => ?_
  · exact Triple.pure (Q := fun _ => Working lib leaked pending K h) _
  refine Triple.bind (fetchRows_spec lib kept live _ _) fun rows => ?_
  cases rows with
  | none => exact Triple.pure (Q := fun _ => Working lib leaked pending K h) _
  | some rows => exact Triple.pure (Q := fun _ => Working lib leaked pending K h) _

theorem rowsFit_zero {ncolumn r : Nat} {calls : List Call} :
    RowsFit lib ncolumn r 0 calls ↔ lib.fetchRow calls = none := by
  constructor
  · rintro ⟨n, none_, last, -⟩
    obtain rfl : n = 0 := by omega
    exact last
  · intro last
    exact ⟨0, Nat.le_refl 0, last, fun k hk => absurd hk (Nat.not_lt_zero k)⟩

theorem replicate_fetchRow (n r : Nat) (calls : List Call) :
    List.replicate (n + 1) (.fetchRow r) ++ calls =
      List.replicate n (.fetchRow r) ++ (.fetchRow r :: calls) := by
  simp [List.replicate_succ', List.append_assoc]

theorem rowsFit_succ {ncolumn r nrow : Nat} {calls : List Call} :
    RowsFit lib ncolumn r (nrow + 1) calls ↔ lib.fetchRow calls = none ∨
      ∃ row, lib.fetchRow calls = some row ∧ ncolumn ≤ row.length ∧
        RowsFit lib ncolumn r nrow (.fetchRow r :: calls) := by
  constructor
  · rintro ⟨n, few, last, rows⟩
    cases n with
    | zero => exact .inl last
    | succ n =>
        obtain ⟨row, first, long⟩ := rows 0 (by omega)
        refine .inr ⟨row, first, long, n, by omega, ?_, ?_⟩
        · rwa [replicate_fetchRow] at last
        · intro k hk
          have := rows (k + 1) (by omega)
          rwa [replicate_fetchRow] at this
  · rintro (last | ⟨row, first, long, n, few, last, rows⟩)
    · exact ⟨0, by omega, last, fun k hk => absurd hk (Nat.not_lt_zero k)⟩
    · refine ⟨n + 1, by omega, ?_, ?_⟩
      · rwa [replicate_fetchRow]
      · intro k hk
        cases k with
        | zero => exact ⟨row, first, long⟩
        | succ k =>
            rw [replicate_fetchRow]
            exact rows k (by omega)

theorem fetchRows_isSome (ncolumn r : Nat) (slots : List (List (List UInt8))) (w : World) :
    (fetchRows lib ncolumn r slots w).1.isSome = true ↔
      RowsFit lib ncolumn r slots.length w.calls := by
  induction slots generalizing w with
  | nil =>
      rw [List.length_nil, rowsFit_zero]
      cases answer : lib.fetchRow w.calls with
      | none => simp [fetchRows, mysqlFetchRow, answer]
      | some row => simp [fetchRows, mysqlFetchRow, answer]
  | cons old slots ih =>
      rw [List.length_cons, rowsFit_succ, ← ih { w with calls := .fetchRow r :: w.calls }]
      cases answer : lib.fetchRow w.calls with
      | none => simp [fetchRows, mysqlFetchRow, answer]
      | some row =>
          by_cases short : row.length < ncolumn
          · have : ¬ ncolumn ≤ row.length := by omega
            simp [fetchRows, mysqlFetchRow, answer, short, this]
          · have : ncolumn ≤ row.length := by omega
            simp [fetchRows, mysqlFetchRow, answer, short, this]

theorem length_resize {α : Type} (a : α) (n : Nat) (xs : List α) : (resize a n xs).length = n := by
  simp only [resize, List.length_append, List.length_take, List.length_replicate]
  omega

/-- parse ends with a value exactly where the answers belong together. -/
theorem parse_ends (result : DbResult) (r : Nat) (w : World) :
    (parse lib result r w).1.1 = .value ⟨⟩ ↔ Fitting lib r w.calls := by
  by_cases count : maxRows < (lib.numRows (.numFields r :: w.calls)).toNat
  · refine ⟨fun ok => ?_, fun fits => absurd fits.count (by omega)⟩
    simp [parse, mysqlNumFields, mysqlNumRows, count] at ok
  by_cases names : (lib.fetchFields (.numRows r :: .numFields r :: w.calls)).length <
      (lib.numFields w.calls).toNat
  · refine ⟨fun ok => ?_, fun fits => absurd fits.names (by omega)⟩
    simp [parse, mysqlNumFields, mysqlNumRows, mysqlFetchFields, count, names] at ok
  have rows := fetchRows_isSome lib (lib.numFields w.calls).toNat r
    (resize [] (lib.numRows (.numFields r :: w.calls)).toNat result.rows)
    ⟨w.conn, .fetchFields r :: .numRows r :: .numFields r :: w.calls⟩
  rw [length_resize] at rows
  have fits : Fitting lib r w.calls ↔ _ :=
    ⟨fun fits => fits.values, fun values => ⟨by omega, by omega, values⟩⟩
  rw [fits, ← rows]
  simp only [parse, mysqlNumFields, mysqlNumRows, mysqlFetchFields, bind_apply, ask_apply, count,
    names, ↓reduceIte]
  cases (fetchRows lib (lib.numFields w.calls).toNat r
    (resize [] (lib.numRows (.numFields r :: w.calls)).toNat result.rows)
    ⟨w.conn, .fetchFields r :: .numRows r :: .numFields r :: w.calls⟩).1 with
  | none => simp
  | some rows => simp

/-- A parse that does not end with a value leaves its result set behind. -/
theorem parse_spec {r : Nat} (kept : Kept K) (result : DbResult) :
    Triple (Working lib leaked (some r) K h) (parse lib result r) fun out w =>
      (out.1 = .value ⟨⟩ ∧ Working lib leaked (some r) K h w) ∨
        (out.1 ≠ .value ⟨⟩ ∧ Working lib (r :: leaked) none K h w) := by
  intro w hw
  by_cases fits : Fitting lib r w.calls
  · refine .inl ⟨(parse_ends lib result r w).mpr fits, ?_⟩
    refine parse_reads lib kept (.inl rfl) (P := fun v => v = w) ?_ result w rfl
    rintro _ rfl
    exact hw.numFields kept fits
  · refine .inr ⟨fun ok => fits ((parse_ends lib result r w).mp ok), ?_⟩
    refine parse_reads lib kept (.inr List.mem_cons_self) (P := fun v => v = w) ?_ result w rfl
    rintro _ rfl
    exact hw.abandoned kept fits

theorem exists_spec (table : List UInt8) : Triple (Stable lib leaked) (exists_ lib info table)
    fun out w => out ≠ .undefined ∧ Stable lib leaked w := by
  refine Triple.bind (R := fun _ => Stable lib leaked) (fun _ hw => hw) fun conn => ?_
  refine Triple.ite (fun _ _ hw => ⟨by simp, hw⟩) fun _ => ?_
  split
  · exact fun _ hw => ⟨by simp, hw⟩
  refine Triple.bind (request_spec lib info _) fun ok => Triple.cases ?_ ?_
  · refine Triple.assume fun yes => Triple.exists fun h => ?_
    rw [if_pos yes]
    refine bind_getConn (Triple.bind (mysqlStoreResult_spec lib) fun r => Triple.cases ?_
      (Triple.exists fun q => ?_))
    · refine Triple.assume fun none_ => ?_
      subst none_
      refine Triple.bind (noResult_spec lib) fun _ => ?_
      exact fun _ hw => ⟨by simp, hw.2⟩
    · refine Triple.assume fun some_ => ?_
      subst some_
      rintro w ⟨hw, new⟩
      refine ⟨by simp, .inr ⟨h, ?_⟩⟩
      have read : Triple (Working lib leaked (some q) Built h) (mysqlNumRows lib q) fun _ =>
          Working lib leaked (some q) Built h :=
        read_working lib kept_built (.inl rfl) (by simp [Call.Plain]) rfl rfl
      exact free_working kept_built new (read w hw)
  · refine Triple.assume fun no => ?_
    rw [if_neg (by simp [no])]
    exact fun _ hw => ⟨by simp, hw⟩

theorem select_spec (sql : List UInt8) (result : Option DbResult) :
    Triple (Stable lib leaked) (select lib info sql result) fun out =>
      Selected lib leaked out.1 := by
  refine Triple.bind (request_spec lib info _) fun ok => Triple.cases ?_ ?_
  · refine Triple.assume fun yes => Triple.exists fun h => ?_
    rw [if_pos yes]
    refine bind_getConn (Triple.bind (mysqlStoreResult_spec lib) fun r => Triple.cases ?_
      (Triple.exists fun q => ?_))
    · refine Triple.assume fun none_ => ?_
      subst none_
      refine Triple.bind (noResult_spec lib) fun _ => ?_
      exact fun _ hw => .inl ⟨⟨_, rfl⟩, hw.2⟩
    · refine Triple.assume fun some_ => ?_
      subst some_
      rintro w ⟨hw, new⟩
      cases result with
      | none => exact .inl ⟨⟨true, rfl⟩, .inr ⟨h, free_working kept_built new hw⟩⟩
      | some result =>
          have parsed := parse_spec lib kept_built result w hw
          simp only [bind_apply]
          generalize parse lib result q w = out at parsed ⊢
          obtain ⟨⟨ending, left⟩, v⟩ := out
          cases ending with
          | value a =>
              rcases parsed with ⟨-, hv⟩ | ⟨no, -⟩
              · exact .inl ⟨⟨true, rfl⟩, .inr ⟨h, free_working kept_built new hv⟩⟩
              · exact absurd rfl no
          | thrown =>
              rcases parsed with ⟨no, -⟩ | ⟨-, hv⟩
              · cases no
              · exact .inr ⟨q, fun ok => by simp, .inr ⟨h, hv⟩⟩
          | undefined =>
              rcases parsed with ⟨no, -⟩ | ⟨-, hv⟩
              · cases no
              · exact .inr ⟨q, fun ok => by simp, .inr ⟨h, hv⟩⟩
  · refine Triple.assume fun no => ?_
    rw [if_neg (by simp [no])]
    exact fun _ hw => .inl ⟨⟨_, rfl⟩, hw⟩

theorem execute_spec (sql : List UInt8) :
    Triple (Stable lib leaked) (execute lib info sql) fun _ => Stable lib leaked := by
  refine Triple.bind (request_spec lib info sql) fun ok => Triple.cases ?_ ?_
  · refine Triple.assume fun yes => Triple.exists fun h => ?_
    rw [if_pos yes]
    refine bind_getConn (Triple.bind (mysqlAffectedRows_spec lib kept_built) fun ret => ?_)
    exact fun _ hw => .inr ⟨h, hw⟩
  · refine Triple.assume fun no => ?_
    rw [if_neg (by simp [no])]
    exact Triple.pure (Q := fun _ => Stable lib leaked) _

theorem affectCount_spec :
    Triple (Stable lib leaked) (affectCount lib) fun _ => Stable lib leaked := by
  refine Triple.cases (bind_getConn_idle fun _ hw => .inl hw) (Triple.exists fun h => ?_)
  refine bind_getConn (bind_getConn ?_)
  refine Triple.bind (mysqlAffectedRows_spec lib kept_built) fun _ => ?_
  exact fun _ hw => .inr ⟨h, hw⟩

theorem getErrno_spec : Triple (Stable lib leaked) (getErrno lib) fun _ => Stable lib leaked := by
  refine Triple.cases (bind_getConn_idle fun _ hw => .inl hw) (Triple.exists fun h => ?_)
  refine bind_getConn (bind_getConn ?_)
  refine Triple.bind (mysqlErrno_spec lib kept_built) fun _ => ?_
  exact fun _ hw => .inr ⟨h, hw⟩

theorem Answered.stable {ok : Bool} {w : World} (h : Answered lib leaked ok w) :
    Stable lib leaked w := by
  rcases h with ⟨-, ready⟩ | ⟨-, stable⟩
  · exact .inr ready
  · exact stable

theorem perform_spec (op : Op) : Triple (Stable lib leaked) (perform lib info op) fun out =>
    Grown lib leaked (out = .undefined) := by
  intro w hw
  cases op with
  | «open» => exact (openConn_stable lib info w hw).stable.grown nofun
  | close => exact Stable.grown (.inl (close_stable lib w hw)) nofun
  | request sql => exact (request_spec lib info sql w hw).stable.grown nofun
  | «exists» table =>
      obtain ⟨defined, stable⟩ := exists_spec lib info table w hw
      refine stable.grown fun undefined_ => defined ?_
      exact Ending.of_forget (e := (exists_ lib info table w).1) undefined_
  | select sql result =>
      rcases select_spec lib info sql result w hw with ⟨⟨ok, value⟩, stable⟩ | ⟨r, -, stable⟩
      · refine stable.grown fun undefined_ => ?_
        have reached := Ending.of_forget (e := (select lib info sql result w).1.1) undefined_
        rw [value] at reached
        cases reached
      · exact ⟨[r], stable, fun _ => by simp⟩
  | execute sql => exact (execute_spec lib info sql w hw).grown nofun
  | beginTransaction => exact (execute_spec lib info _ w hw).grown nofun
  | commit => exact (execute_spec lib info _ w hw).grown nofun
  | affectCount => exact (affectCount_spec lib w hw).grown nofun
  | getErrno => exact (getErrno_spec lib w hw).grown nofun

theorem performAll_spec (ops : List Op) : Triple (Stable lib leaked) (performAll lib info ops)
    fun defined => Grown lib leaked (defined = false) := by
  induction ops generalizing leaked with
  | nil => exact fun w hw => hw.grown nofun
  | cons op ops ih =>
      intro w hw
      obtain ⟨more, stable, ends⟩ := perform_spec lib info op w hw
      simp only [performAll, bind_apply]
      split
      · case isTrue undefined_ => exact ⟨more, stable, fun _ => ends undefined_⟩
      · obtain ⟨more', stable', ends'⟩ := ih _ stable
        refine ⟨more' ++ more, by rwa [List.append_assoc], fun no => ?_⟩
        simp [ends' no]

theorem performAll_append (before after : List Op) (w : World) :
    performAll lib info (before ++ after) w =
      if (performAll lib info before w).1 then
        performAll lib info after (performAll lib info before w).2
      else performAll lib info before w := by
  induction before generalizing w with
  | nil => simp [performAll]
  | cons op before ih =>
      simp only [List.cons_append, performAll, bind_apply]
      split
      · simp
      · exact ih _

theorem stable_new : Stable lib [] ⟨none, []⟩ := by
  refine .inl ⟨⟨trivial, by simp [IsOpen], by simp [IsLive], ?_⟩, rfl⟩
  simp [Fitted]

theorem Stable.valid {w : World} (h : Stable lib leaked w) : Valid lib leaked none w := by
  rcases h with idle | ⟨_, v, -⟩
  · exact idle.1
  · exact v

/-- Every call finds its handle open and its result set live; no handle is closed
twice and no result set is freed twice. -/
def Sound (calls : List Call) : Prop :=
  (∀ later c earlier, calls = later ++ c :: earlier →
    (∀ conn, c.handle = some conn → ∃ h, conn = some h ∧ IsOpen earlier h) ∧
    ∀ r, c.resultSet = some r → IsLive earlier r) ∧
  (∀ h, calls.count (.close (some h)) ≤ 1) ∧ ∀ r, calls.count (.freeResult r) ≤ 1

theorem LifeCycle.sound {calls : List Call} (cycle : LifeCycle calls) : Sound calls := by
  refine ⟨?_, close_count_le cycle, free_count_le cycle⟩
  rintro later c earlier rfl
  induction later with
  | nil => exact ⟨cycle.1.1, cycle.1.2.1⟩
  | cons d later ih => exact ih cycle.2

theorem count_of_not_live {calls : List Call} {conn : Option Nat} {r : Nat}
    (cycle : LifeCycle calls) (stored : .storeResult conn (some r) ∈ calls)
    (dead : ¬ IsLive calls r) : calls.count (.freeResult r) = 1 := by
  have freed : .freeResult r ∈ calls := by
    by_contra notFreed
    exact dead ⟨⟨conn, stored⟩, notFreed⟩
  have := List.count_pos_iff.mpr freed
  have := free_count_le cycle r
  omega

theorem count_of_not_open {calls : List Call} {h : Nat} (cycle : LifeCycle calls)
    (issued : .init (some h) ∈ calls) (notOpen : ¬ IsOpen calls h) :
    calls.count (.close (some h)) = 1 := by
  have closed : .close (some h) ∈ calls := by
    by_contra notClosed
    exact notOpen ⟨issued, notClosed⟩
  have := List.count_pos_iff.mpr closed
  have := close_count_le cycle h
  omega

/-- What holds after a sequence of operations: no access was outside an array,
calls only got open handles and live result sets, the pointer is the handle the
last open built, every result set was freed once, and the destructor leaves
every handle closed once. -/
structure Followed (ops : List Op) : Prop where
  defined : (run lib info ops).1 = true
  sound : Sound (run lib info ops).2.calls
  conn : ∀ h, (run lib info ops).2.conn = some h ↔ Built (run lib info ops).2.calls h
  freed : ∀ conn r, .storeResult conn (some r) ∈ (run lib info ops).2.calls →
    (run lib info ops).2.calls.count (.freeResult r) = 1
  soundLast : Sound (afterDestruction lib info ops).calls
  closed : ∀ h, .init (some h) ∈ (afterDestruction lib info ops).calls →
    (afterDestruction lib info ops).calls.count (.close (some h)) = 1

theorem followed_of_stable {ops : List Op} (defined : (run lib info ops).1 = true)
    (stable : Stable lib [] (run lib info ops).2) : Followed lib info ops := by
  have v := stable.valid
  obtain ⟨last, gone⟩ := close_stable lib _ stable
  refine ⟨defined, v.cycle.sound, ?_, ?_, last.cycle.sound, ?_⟩
  · intro h
    refine ⟨fun conn => ?_, fun built => (v.conn h).mp (built.isOpen v.cycle)⟩
    rcases stable with ⟨-, none_⟩ | ⟨g, -, conn', built⟩
    · rw [none_] at conn
      cases conn
    · rw [conn'] at conn
      cases conn
      exact built
  · intro conn r stored
    refine count_of_not_live v.cycle stored ?_
    rw [v.live r]
    simp
  · intro h issued
    refine count_of_not_open last.cycle issued ?_
    intro isOpen
    have := (last.conn h).mp isOpen
    rw [gone] at this
    cases this

/-- The result set of a parse that an exception ended is never freed. -/
theorem not_followed_of_leaked {ops : List Op} {r : Nat} (mem : r ∈ leaked)
    (stable : Stable lib leaked (run lib info ops).2) : ¬ Followed lib info ops := by
  intro followed
  obtain ⟨⟨conn, stored⟩, notFreed⟩ := (stable.valid.live r).mpr (.inr mem)
  have := followed.freed conn r stored
  rw [List.count_eq_zero_of_not_mem notFreed] at this
  cases this

/-- For every library and every sequence of operations: each operation of it, and
the destructor behind each, follows the life cycle exactly when the answers to
every parse of select belong together. -/
theorem life_cycle_iff (ops : List Op) :
    (∀ before after, ops = before ++ after → Followed lib info before) ↔
      Fitted lib (run lib info ops).2.calls := by
  constructor
  · intro followed
    have whole := followed ops [] (List.append_nil ops).symm
    obtain ⟨more, stable, -⟩ := performAll_spec lib info ops _ (stable_new lib)
    refine stable.valid.fitted.mpr ?_
    by_contra leak
    obtain ⟨r, mem⟩ := List.exists_mem_of_ne_nil _ leak
    exact not_followed_of_leaked lib info mem stable whole
  · rintro fitted before after rfl
    obtain ⟨more, stable, ends⟩ := performAll_spec lib info before _ (stable_new lib)
    have split := performAll_append lib info before after ⟨none, []⟩
    -- A result set leaked before would still be leaked at the end.
    have clean : more = [] ∧ (run lib info before).1 = true := by
      cases defined : (run lib info before).1 with
      | false =>
          rw [if_neg (by simpa [run] using defined)] at split
          rw [run, split] at fitted
          have none_ := stable.valid.fitted.mp fitted
          rw [List.append_nil] at none_
          exact absurd none_ (ends defined)
      | true =>
          rw [if_pos (by simpa [run] using defined)] at split
          obtain ⟨later, stable', -⟩ := performAll_spec lib info after _ stable
          rw [run, split] at fitted
          have none_ := stable'.valid.fitted.mp fitted
          simp only [List.append_nil, List.append_eq_nil_iff] at none_
          exact ⟨none_.2, rfl⟩
    obtain ⟨rfl, defined⟩ := clean
    exact followed_of_stable lib info defined stable

/-- A library that answers a select with more rows than a vector may hold. -/
def countless : Library where
  init _ := true
  realConnect _ := true
  setCharacterSet _ := false
  autocommit _ := false
  query _ := false
  errno _ := 0
  storeResult _ := true
  affectedRows _ := 0
  numFields _ := 1
  numRows _ := 18446744073709551615
  fetchFields _ := [some (bytes "id")]
  fetchRow _ := none

def localServer : ConnectInfo where
  addr := bytes "127.0.0.1:3306"
  database := bytes "robot"
  user := bytes "root"
  password := []

theorem countless_rows_leak :
    ¬ Followed countless localServer [.open, .select (bytes "select id from log") (some {})] := by
  intro followed
  have freed := followed.freed (some 0) 6
  revert freed
  decide +kernel

end

end HZRobot.Mysql
