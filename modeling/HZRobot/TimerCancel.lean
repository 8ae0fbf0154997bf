import HZRobot.TimerManager

/-!
Cancelled timers. do_timer decides from its own copy whether the entry goes back, so
a callback that cancels its own id and returns true is started again; in the runs
where no callback does that, and no id is handed out twice or after its cancellation,
a cancelled timer stays silent.
-/

namespace HZRobot.TimerManager

/-- No callback of a timer starts behind its cancellation. -/
def Silent (history : List Event) : Prop :=
  ∀ id ≠ 0, ∀ before after, history = before ++ .cancelled id :: after → .started id ∉ after

theorem Silent.append {history : List Event} (h : Silent history) {e : Event}
    (late : ∀ id ≠ 0, e = .started id → .cancelled id ∉ history) : Silent (history ++ [e]) := by
  intro id nonzero before after split inside
  induction after using List.reverseRecOn with
  | nil => cases inside
  | append_singleton after last _ =>
      have same : history ++ [e] = (before ++ .cancelled id :: after) ++ [last] := by
        rw [split, List.append_assoc, List.cons_append]
      obtain ⟨front, back⟩ := List.append_inj' same rfl
      have last_eq : e = last := by simpa using back
      rcases List.mem_append.mp inside with old | new
      · exact h id nonzero before after front old
      · refine late id nonzero (last_eq.trans (List.mem_singleton.mp new).symm) ?_
        rw [front]
        exact List.mem_append_right _ List.mem_cons_self

/-- set_timer hands out an id it never handed out and nobody cancelled, and a
callback that returns true was not cancelled. -/
def Tame (s : System) : Action → Prop
  | .setTimer _ delay _ => delay ≠ 0 →
      .set (add64 s.id 1) ∉ s.history ∧ .cancelled (add64 s.id 1) ∉ s.history
  | .finish true _ => ∀ item ∈ s.pc.item, item.id ≠ 0 → .cancelled item.id ∉ s.history
  | _ => True

instance Tame.decidable (s : System) : ∀ a, Decidable (Tame s a)
  | .setTimer _ delay _ => inferInstanceAs (Decidable (delay ≠ 0 →
      .set (add64 s.id 1) ∉ s.history ∧ .cancelled (add64 s.id 1) ∉ s.history))
  | .finish true _ => inferInstanceAs
      (Decidable (∀ item ∈ s.pc.item, item.id ≠ 0 → .cancelled item.id ∉ s.history))
  | .finish false _ => .isTrue trivial
  | .cancelTimer _ => .isTrue trivial
  | .clearAll => .isTrue trivial
  | .doTimer _ => .isTrue trivial
  | .loop => .isTrue trivial

structure Quiet (s : System) : Prop where
  distinct : (ids s.entries).Nodup
  issued : ∀ id ∈ ids s.entries, .set id ∈ s.history
  running : ∀ item ∈ s.pc.item, .set item.id ∈ s.history ∧ item.id ∉ ids s.entries
  gone : ∀ id ≠ 0, .cancelled id ∈ s.history → id ∉ ids s.entries
  silent : Silent s.history

theorem quiet_init : Quiet init := by
  refine ⟨List.nodup_nil, ?_, ?_, ?_, ?_⟩
  · intro id inside
    cases inside
  · intro item running
    cases running
  · intro id _ cancelled
    cases cancelled
  · intro id _ before after split
    exact absurd split (by simp [init])

theorem not_mem_cancelEntries {id : Nat} {entries : List (Nat × Timer)}
    (distinct : (ids entries).Nodup) (nonzero : id ≠ 0) : id ∉ ids (cancelEntries id entries) := by
  rw [cancelEntries, if_neg nonzero, eraseId_eq_filter distinct, mem_ids]
  rintro ⟨e, he, same⟩
  simp [same] at he

/-- A step that keeps a part of the entries, the running item and the past, and
starts and cancels nothing. -/
theorem Quiet.of_sublist {s t : System} (h : Quiet s) (entries : t.entries.Sublist s.entries)
    (pc : ∀ item ∈ t.pc.item, item ∈ s.pc.item) {e : Event} (calm : ∀ id, e ≠ .started id)
    (cancels : ∀ id ≠ 0, e = .cancelled id → id ∉ ids t.entries)
    (history : t.history = s.history ++ [e]) : Quiet t := by
  have part : (ids t.entries).Sublist (ids s.entries) := entries.map _
  refine ⟨h.distinct.sublist part, ?_, ?_, ?_, ?_⟩
  · intro id inside
    rw [history]
    exact List.mem_append_left _ (h.issued id (part.subset inside))
  · intro item running
    obtain ⟨issued, out⟩ := h.running item (pc item running)
    rw [history]
    exact ⟨List.mem_append_left _ issued, fun inside => out (part.subset inside)⟩
  · intro id nonzero cancelled inside
    rw [history] at cancelled
    rcases List.mem_append.mp cancelled with old | new
    · exact h.gone id nonzero old (part.subset inside)
    · exact cancels id nonzero (List.mem_singleton.mp new).symm inside
  · rw [history]
    exact h.silent.append fun id _ started => absurd started (calm id)

theorem Quiet.of_same {s t : System} (h : Quiet s) (entries : t.entries = s.entries)
    (pc : t.pc.item = s.pc.item) (history : t.history = s.history) : Quiet t := by
  refine ⟨entries ▸ h.distinct, ?_, ?_, ?_, history ▸ h.silent⟩
  · rw [entries, history]
    exact h.issued
  · rw [entries, history, pc]
    exact h.running
  · rw [entries, history]
    exact h.gone

theorem quiet_setTimer {s : System} (h : Quiet s) (now delay : Nat) (relative : Bool)
    (tame : Tame s (.setTimer now delay relative)) : Quiet (setTimer s now delay relative) := by
  unfold setTimer
  split
  · exact h
  · case isFalse positive =>
    obtain ⟨fresh, uncancelled⟩ := tame positive
    have new : ∀ id, id ∈ ids (insert (add64 now delay)
        ⟨add64 s.id 1, delay, add64 now delay, relative⟩ s.entries) ↔
        id = add64 s.id 1 ∨ id ∈ ids s.entries := by
      intro id
      rw [ids, ((insert_perm _ _ s.entries).map _).mem_iff]
      exact List.mem_cons
    refine ⟨?_, ?_, ?_, ?_, ?_⟩
    · refine ((insert_perm _ _ s.entries).map _).nodup_iff.mpr ?_
      rw [List.map_cons, List.nodup_cons]
      exact ⟨fun inside => fresh (h.issued _ inside), h.distinct⟩
    · intro id inside
      rcases (new id).mp inside with rfl | old
      · exact List.mem_append_right _ (List.mem_singleton.mpr rfl)
      · exact List.mem_append_left _ (h.issued id old)
    · intro item running
      obtain ⟨issued, out⟩ := h.running item running
      refine ⟨List.mem_append_left _ issued, fun inside => ?_⟩
      rcases (new item.id).mp inside with same | old
      · exact fresh (same ▸ issued)
      · exact out old
    · intro id nonzero cancelled inside
      rcases List.mem_append.mp cancelled with past | other
      · rcases (new id).mp inside with rfl | old
        · exact uncancelled past
        · exact h.gone id nonzero past old
      · cases List.mem_singleton.mp other
    · exact h.silent.append fun id _ started => by cases started

theorem quiet_finish {s : System} (h : Quiet s) {item : Timer} {before now : Nat}
    (pc : s.pc = .running item before) (tame : Tame s (.finish true now)) :
    Quiet ({ s with
      entries := insert (item.again now).timestamp (item.again now) s.entries,
      pc := .looping now }.log (.finished item.id true)) := by
  obtain ⟨issued, out⟩ := h.running item (by rw [pc]; rfl)
  have uncancelled := tame item (by rw [pc]; rfl)
  have new : ∀ id, id ∈ ids (insert (item.again now).timestamp (item.again now) s.entries) ↔
      id = item.id ∨ id ∈ ids s.entries := by
    intro id
    rw [ids, ((insert_perm _ _ s.entries).map _).mem_iff]
    exact List.mem_cons
  refine ⟨?_, ?_, ?_, ?_, ?_⟩
  · refine ((insert_perm _ _ s.entries).map _).nodup_iff.mpr ?_
    rw [List.map_cons, List.nodup_cons]
    exact ⟨out, h.distinct⟩
  · intro id inside
    rcases (new id).mp inside with rfl | old
    · exact List.mem_append_left _ issued
    · exact List.mem_append_left _ (h.issued id old)
  · intro item running
    cases running
  · intro id nonzero cancelled inside
    rcases List.mem_append.mp cancelled with past | other
    · rcases (new id).mp inside with rfl | old
      · exact uncancelled nonzero past
      · exact h.gone id nonzero past old
    · cases List.mem_singleton.mp other
  · exact h.silent.append fun id _ started => by cases started

/-- A callback starts: its entry was queued, so its id was not cancelled. -/
theorem quiet_start {s : System} (h : Quiet s) {key now : Nat} {item : Timer}
    {es : List (Nat × Timer)} (entries : s.entries = (key, item) :: es) :
    Quiet ({ s with entries := es, pc := .running item now }.log (.started item.id)) := by
  have all : ids s.entries = item.id :: ids es := by rw [entries]; rfl
  have distinct := h.distinct
  rw [all, List.nodup_cons] at distinct
  refine ⟨distinct.2, ?_, ?_, ?_, ?_⟩
  · intro id inside
    exact List.mem_append_left _ (h.issued id (all ▸ List.mem_cons_of_mem _ inside))
  · intro i running
    cases running
    exact ⟨List.mem_append_left _ (h.issued _ (all ▸ List.mem_cons_self)), distinct.1⟩
  · intro id nonzero cancelled inside
    rcases List.mem_append.mp cancelled with past | other
    · exact h.gone id nonzero past (all ▸ List.mem_cons_of_mem _ inside)
    · cases List.mem_singleton.mp other
  · refine h.silent.append fun id nonzero started cancelled => ?_
    cases started
    exact h.gone _ nonzero cancelled (all ▸ List.mem_cons_self)

theorem quiet_step {s t : System} {a : Action} (tame : Tame s a) (h : Quiet s)
    (taken : step s a = some t) : Quiet t := by
  cases a with
  | setTimer now delay relative =>
      obtain ⟨-, rfl⟩ := user_cases taken
      exact quiet_setTimer h now delay relative tame
  | cancelTimer id =>
      obtain ⟨-, rfl⟩ := user_cases taken
      refine h.of_sublist (cancelEntries_sublist id s.entries) (fun _ running => running)
        (fun _ started => by cases started) (fun other nonzero cancelled => ?_) rfl
      cases cancelled
      exact not_mem_cancelEntries h.distinct nonzero
  | clearAll =>
      obtain ⟨-, rfl⟩ := user_cases taken
      refine ⟨List.nodup_nil, ?_, ?_, ?_, h.silent⟩
      · intro id inside
        cases inside
      · intro item running
        exact ⟨(h.running item running).1, List.not_mem_nil⟩
      · intro id _ _ inside
        cases inside
  | doTimer now =>
      obtain ⟨pc, rfl | rfl⟩ := doTimer_cases taken
      · exact h.of_sublist (List.Sublist.refl _) (fun _ running => running)
          (fun _ started => by cases started) (fun _ _ cancelled => by cases cancelled) rfl
      · exact h.of_same rfl (by rw [pc]; rfl) rfl
  | loop =>
      obtain ⟨now, pc, ⟨-, rfl⟩ | ⟨key, item, es, entries, -, rfl⟩ | ⟨-, -, -, -, -, rfl⟩⟩ :=
        loop_cases taken
      · exact h.of_sublist (List.Sublist.refl _) (fun _ running => by cases running)
          (fun _ started => by cases started) (fun _ _ cancelled => by cases cancelled) rfl
      · exact quiet_start h entries
      · exact h.of_sublist (List.Sublist.refl _) (fun _ running => by cases running)
          (fun _ started => by cases started) (fun _ _ cancelled => by cases cancelled) rfl
  | finish again now =>
      obtain ⟨item, before, pc, ⟨rfl, rfl⟩ | ⟨-, rfl⟩⟩ := finish_cases taken
      · exact quiet_finish h pc tame
      · exact h.of_sublist (List.Sublist.refl _) (fun _ running => by cases running)
          (fun _ started => by cases started) (fun _ _ cancelled => by cases cancelled) rfl

/-- In every run of tame steps a cancelled timer stays silent. -/
theorem cancelled_stays_silent {schedule : List Action} {s : System}
    (tame : StepsMeet step Tame init schedule) (run : runs step init schedule = some s) :
    Silent s.history :=
  (runs_invariant_of_steps (fun _ _ _ tame h taken => quiet_step tame h taken) tame run
    quiet_init).silent

theorem cancelled_stays_silent_repeating :
    ∃ s : System, runs step init repeatingSchedule = some s ∧ .cancelled 2 ∈ s.history ∧
      Silent s.history := by
  have tame : StepsMeet step Tame init repeatingSchedule := by decide
  exact ⟨_, rfl, by decide, cancelled_stays_silent tame rfl⟩

/-- The callback of timer 1 cancels timer 1 and returns true. -/
theorem cancelled_starts_again :
    ∃ schedule s, runs step init schedule = some s ∧ ¬ Silent s.history := by
  refine ⟨[.setTimer 0 1 false, .doTimer 1, .loop, .cancelTimer 1, .finish true 2, .loop],
    _, rfl, ?_⟩
  intro silent
  exact silent 1 (by decide) [.set 1, .started 1] [.finished 1 true, .started 1] rfl (by decide)

end HZRobot.TimerManager
