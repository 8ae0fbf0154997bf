import HZRobot.TaskMangerOrder

/-!
Every schedule of the task manager: each accepted task is in exactly one place,
is executed at most once and alone, and leaves the list in the order it was put.
The order of acceptance is a different matter, since the detached pushers
compete for t_mutex after start_product has returned.
-/

namespace HZRobot.TaskManger

inductive Place where
  | pending
  | queued
  | executing
  | finished
  deriving DecidableEq, Repr

def System.At (s : System) (t : Nat) : Place → Prop
  | .pending => s.pusher t ≠ .absent ∧ (s.pusher t).hasPut = false
  | .queued => t ∈ s.mList
  | .executing => ∃ i, t ∈ (s.poller i).task
  | .finished => .delete t ∈ s.history

theorem mem_current_iff {s : System} (hl : Locked s) (t : Nat) :
    t ∈ s.current ↔ s.At t .executing := by
  constructor
  · intro ht
    unfold System.current at ht
    split at ht
    case h_1 i _ => exact ⟨i, ht⟩
    case h_2 => cases ht
  · rintro ⟨i, ht⟩
    rwa [current_of_task hl ht]

/-- The put tasks, split by where they are now. -/
theorem Sound.puts_eq {s : System} (hs : Sound s) :
    puts s.history = deletes s.history ++ (s.current ++ s.mList) := by
  rw [hs.listed.listed, hs.served.served, List.append_assoc]

theorem Sound.one_place {s : System} (hs : Sound s) (t : Nat) (ht : t < s.next) :
    ∃! p, s.At t p := by
  have spawned : s.pusher t ≠ .absent := by
    rw [Ne, hs.locked.freshPusher]
    omega
  have exclusive := hs.listed.nodup
  rw [hs.puts_eq, List.nodup_append, List.nodup_append] at exclusive
  obtain ⟨-, ⟨-, -, apart⟩, deletedApart⟩ := exclusive
  have places := hs.listed.put t
  rw [hs.puts_eq, List.mem_append, List.mem_append, mem_deletes,
    mem_current_iff hs.locked] at places
  by_cases put : (s.pusher t).hasPut = true
  · rcases places.mpr put with deleted | current | queued
    · refine ⟨.finished, deleted, fun p hp => ?_⟩
      have gone := (mem_deletes _).mpr deleted
      cases p with
      | pending => simp [System.At, put] at hp
      | queued => exact absurd rfl (deletedApart t gone t (List.mem_append_right _ hp))
      | executing =>
          have current := (mem_current_iff hs.locked t).mpr hp
          exact absurd rfl (deletedApart t gone t (List.mem_append_left _ current))
      | finished => rfl
    · have held := (mem_current_iff hs.locked t).mpr current
      refine ⟨.executing, current, fun p hp => ?_⟩
      cases p with
      | pending => simp [System.At, put] at hp
      | queued => exact absurd rfl (apart t held t hp)
      | executing => rfl
      | finished =>
          have gone := (mem_deletes _).mpr hp
          exact absurd rfl (deletedApart t gone t (List.mem_append_left _ held))
    · refine ⟨.queued, queued, fun p hp => ?_⟩
      cases p with
      | pending => simp [System.At, put] at hp
      | queued => rfl
      | executing => exact absurd rfl (apart t ((mem_current_iff hs.locked t).mpr hp) t queued)
      | finished =>
          have gone := (mem_deletes _).mpr hp
          exact absurd rfl (deletedApart t gone t (List.mem_append_right _ queued))
  · have nowhere := places.not.mpr put
    refine ⟨.pending, ⟨spawned, by simpa using put⟩, fun p hp => ?_⟩
    cases p with
    | pending => rfl
    | queued => exact absurd (.inr (.inr hp)) nowhere
    | executing => exact absurd (.inr (.inl hp)) nowhere
    | finished => exact absurd (.inl hp) nowhere

theorem PollerPc.begun_prefix (pc : PollerPc) : pc.begun <+: pc.task := by
  cases pc <;> simp [PollerPc.begun, PollerPc.task]

theorem Sound.executions_prefix {s : System} (hs : Sound s) :
    executions s.history <+: puts s.history := by
  rw [hs.puts_eq, hs.served.begun, List.prefix_append_right_inj]
  apply List.IsPrefix.trans _ (List.prefix_append _ _)
  unfold System.begun System.current
  split
  · exact PollerPc.begun_prefix _
  · exact List.prefix_refl _

/-- At most one poller is between Get and delete, hence at most one executes. -/
theorem Sound.one_executing {s : System} (hs : Sound s) {i j : Nat} {t u : Nat}
    (hi : t ∈ (s.poller i).task) (hj : u ∈ (s.poller j).task) : i = j ∧ t = u := by
  have same : i = j := by
    apply hs.locked.one_poller
    · cases hpc : s.poller i <;> simp_all [PollerPc.task, PollerPc.holdsTask]
    · cases hpc : s.poller j <;> simp_all [PollerPc.task, PollerPc.holdsTask]
  subst same
  refine ⟨rfl, ?_⟩
  cases hpc : s.poller i <;> simp_all [PollerPc.task]

theorem every_task_accounted_for (schedule : List Action) (s : System)
    (run : runs step init schedule = some s) :
    products s.history = List.range s.next ∧
    (∀ t < s.next, ∃! p, s.At t p) ∧
    s.mList.Nodup ∧
    (executions s.history).Nodup ∧
    (∀ i j t u, t ∈ (s.poller i).task → u ∈ (s.poller j).task → i = j ∧ t = u) ∧
    Justified s.history ∧
    puts s.history = pops s.history ++ s.mList ∧
    ∀ i, s.poller i ≠ .poppedEmpty := by
  have hs : Sound s := sound_of_reachable ⟨schedule, run⟩
  have nodup := hs.listed.nodup
  refine ⟨hs.listed.produced, hs.one_place, ?_, ?_, fun i j t u => hs.one_executing,
    hs.justified, hs.listed.listed, hs.locked.notEmpty⟩
  · rw [hs.listed.listed] at nodup
    exact (List.nodup_append.mp nodup).2.1
  · exact nodup.sublist hs.executions_prefix.sublist

/-- Two pollers and two missions. The first mission is carried out and deleted while the second
is put, and then executed by the same poller, since the other one waits for task_mutex. -/
def twoMissions : List Action :=
  [.callDel 0, .spawnPoller 0, .callReturn 0, .callDel 0, .spawnPoller 0, .callReturn 0,
    .pollerLock 0, .pollerInstance 0, .getLock 0, .getCheck 0, .callProduct 1, .spawnPusher 1,
    .callReturn 1, .pusherLock 0, .pusherInstance 0, .putLock 0, .putPush 0, .putUnlock 0,
    .getWake 0, .pusherUnlock 0, .getCheck 0, .getPop 0, .callProduct 1, .executeBegin 0 0,
    .spawnPusher 1, .callReturn 1, .executeEnd 0 0 true, .pusherLock 1, .afterBegin 0 0 true,
    .pusherInstance 1, .putLock 1, .putPush 1, .afterEnd 0 0, .putUnlock 1, .pusherUnlock 1,
    .deleteTask 0 0, .getLock 0, .getCheck 0, .getPop 0, .executeBegin 0 1]

theorem two_missions_accounted_for :
    ∃ s, runs step init twoMissions = some s ∧ s.next = 2 ∧ s.pollers = 2 ∧
      s.At 0 .finished ∧ s.At 1 .executing ∧ (∀ t < s.next, ∃! p, s.At t p) :=
  ⟨_, rfl, rfl, rfl, (mem_deletes _).mp (by decide +kernel), ⟨0, List.mem_singleton_self 1⟩,
    (every_task_accounted_for twoMissions _ rfl).2.1⟩

/-- Every task is put before the next one is accepted. -/
def Settled (h : List Event) : Prop :=
  ∀ before t later, h = before ++ .product t :: later → ∀ u ∈ products before, u ∈ puts before

instance (h : List Event) : Decidable (Settled h) :=
  decidable_of_iff (∀ n ∈ List.range h.length,
      products ((h.drop n).take 1) = [] ∨ ∀ u ∈ products (h.take n), u ∈ puts (h.take n)) (by
    constructor
    · intro each before t later split
      have room : before.length < h.length := by
        rw [split, List.length_append, List.length_cons]
        omega
      have here := each before.length (List.mem_range.mpr room)
      rw [split, List.drop_left, List.take_left] at here
      exact here.resolve_left (List.cons_ne_nil t [])
    · intro settled n inside
      have room := List.mem_range.mp inside
      rw [List.drop_eq_getElem_cons room]
      cases e : h[n] with
      | product t =>
          refine .inr (settled _ t (h.drop (n + 1)) ?_)
          rw [← e, List.getElem_cons_drop, List.take_append_drop]
      | _ => exact .inl rfl)

theorem settled_of_append {h : List Event} {e : Event} (hs : Settled (h ++ [e])) :
    Settled h := by
  intro before t later split
  apply hs before t (later ++ [e])
  simp [split]

/-- With every earlier task put, the puts so far run through the ids in order. -/
def InOrder (s : System) : Prop :=
  Settled s.history → (∀ u, u + 1 < s.next → u ∈ puts s.history) ∧
    ∃ k, puts s.history = List.range k

theorem inOrder_quiet {s t : System} (hs : InOrder s) (next : t.next = s.next)
    (history : t.history = s.history ∨
      ∃ e, e.put? = [] ∧ t.history = s.history ++ [e]) : InOrder t := by
  intro settled
  rw [next]
  rcases history with same | ⟨e, quiet, logged⟩
  · rw [same] at settled ⊢
    exact hs settled
  · rw [logged] at settled ⊢
    simpa [quiet] using hs (settled_of_append settled)

theorem inOrder_step (s : System) (a : Action) (t : System) (sound : Sound s) (hs : InOrder s)
    (h : step s a = some t) : InOrder t := by
  cases a <;>
    simp only [step, System.setCaller, System.setPusher, System.setPoller, System.log,
      Option.ite_none_right_eq_some, Option.some.injEq] at h
  case spawnPusher i =>
      obtain ⟨g, rfl⟩ := h
      intro settled
      obtain ⟨-, k, order⟩ := hs (settled_of_append settled)
      have allPut := settled s.history s.next [] rfl
      rw [sound.listed.produced] at allPut
      refine ⟨fun u hu => ?_, k, by simpa [Event.put?] using order⟩
      simpa [Event.put?] using allPut u (List.mem_range.mpr (by simpa using hu))
  case putPush u =>
      obtain ⟨g, rfl⟩ := h
      intro settled
      obtain ⟨earlier, k, order⟩ := hs (settled_of_append settled)
      have spawned : u < s.next := by
        by_contra absent
        have := (sound.locked.freshPusher u).mpr (by omega)
        simp [g] at this
      have notPut : u ∉ puts s.history := by
        rw [sound.listed.put u, g]
        decide
      have last : k = u := by
        have notBelow : ¬ u < k := by simpa [order] using notPut
        have notAbove : ¬ k < u := by
          intro below
          have put := earlier k (by omega)
          simp [order] at put
        omega
      subst last
      refine ⟨fun v hv => ?_, k + 1, ?_⟩
      · simp [earlier v hv]
      · simp [order, Event.put?, List.range_succ]
  case getCheck i =>
      obtain ⟨g, h⟩ := h
      split at h <;> cases h <;> exact inOrder_quiet hs rfl (.inl rfl)
  case getPop i =>
      obtain ⟨g, h⟩ := h
      split at h <;> cases h
      · exact inOrder_quiet hs rfl (.inl rfl)
      · exact inOrder_quiet hs rfl (.inr ⟨_, rfl, rfl⟩)
  case afterBegin i u valid =>
      obtain ⟨g, h⟩ := h
      cases valid <;> cases h
      · exact inOrder_quiet hs rfl (.inl rfl)
      · exact inOrder_quiet hs rfl (.inr ⟨_, rfl, rfl⟩)
  all_goals
    obtain ⟨g, rfl⟩ := h
    first
    | exact inOrder_quiet hs rfl (.inl rfl)
    | exact inOrder_quiet hs rfl (.inr ⟨_, rfl, rfl⟩)

theorem inOrder_of_reachable {s : System} (h : Reachable step init s) : InOrder s := by
  suffices Sound s ∧ InOrder s from this.2
  apply h.invariant
  · exact ⟨sound_of_reachable ⟨[], rfl⟩, fun _ => ⟨by simp [init], 0, rfl⟩⟩
  · intro s a t hs ha
    refine ⟨⟨locked_step s a t hs.1.locked ha, listed_step s a t hs.1.locked hs.1.listed ha,
      served_step s a t hs.1.locked hs.1.served ha, ?_⟩, inOrder_step s a t hs.1 hs.2 ha⟩
    exact justified_step s a t hs.1.locked hs.1.listed hs.1.served hs.1.justified ha

/-- taskPoll executes in the order of the puts, which is the order of acceptance
when no task is accepted while an earlier one is still with its pusher. -/
theorem execution_follows_puts (schedule : List Action) (s : System)
    (run : runs step init schedule = some s) :
    executions s.history <+: puts s.history ∧
    (Settled s.history → executions s.history <+: products s.history) := by
  have reachable : Reachable step init s := ⟨schedule, run⟩
  have sound := sound_of_reachable reachable
  refine ⟨sound.executions_prefix, fun settled => ?_⟩
  obtain ⟨-, k, order⟩ := inOrder_of_reachable reachable settled
  apply sound.executions_prefix.trans
  rw [order, sound.listed.produced]
  have bound : k ≤ s.next := by
    by_contra above
    have put : s.next ∈ puts s.history := by simpa [order] using above
    rw [sound.listed.put, (sound.locked.freshPusher s.next).mpr (Nat.le_refl _)] at put
    cases put
  obtain ⟨d, hd⟩ := Nat.exists_eq_add_of_le bound
  rw [hd, List.range_add]
  exact List.prefix_append _ _

theorem two_missions_follow_puts :
    ∃ s, runs step init twoMissions = some s ∧ executions s.history = [0, 1] ∧
      executions s.history <+: puts s.history ∧ Settled s.history ∧
        executions s.history <+: products s.history := by
  obtain ⟨puts_, products_⟩ := execution_follows_puts twoMissions _ rfl
  exact ⟨_, rfl, rfl, puts_, by decide +kernel, products_ (by decide +kernel)⟩

/-- Caller 0 has two missions accepted one after the other; the second pusher
takes t_mutex first. -/
def overtaken : List Action :=
  [.callProduct 0, .spawnPusher 0, .callReturn 0, .callProduct 0, .spawnPusher 0,
    .callReturn 0, .pusherLock 1, .pusherInstance 1, .putLock 1, .putPush 1, .putUnlock 1,
    .pusherUnlock 1, .callDel 1, .spawnPoller 1, .callReturn 1, .pollerLock 0,
    .pollerInstance 0, .getLock 0, .getCheck 0, .getPop 0, .executeBegin 0 1]

theorem acceptance_order_not_kept :
    ¬ ∀ schedule s, (∀ i, Action.callProduct i ∈ schedule → i = 0) →
      runs step init schedule = some s → executions s.history <+: products s.history := by
  intro claim
  have kept := claim overtaken _ (by simp [overtaken]) rfl
  revert kept
  decide

end HZRobot.TaskManger
