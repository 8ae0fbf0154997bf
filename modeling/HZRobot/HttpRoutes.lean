import HZRobot.HttpForward

/-!
Which branch of handle_request a request takes. The routes are searched for anywhere in
the path behind doc_root, so a target can name a route without starting with it. What is
opened as a file lies under doc_root, component by component.
-/

namespace HZRobot.Http

inductive Branch where
  | refused
  | proxy
  | mission
  | configs
  | posted
  | got
  /-- The path that is passed to open. -/
  | file (path : List UInt8)
  deriving DecidableEq, Repr

def branch (doc_root : List UInt8) (req : Incoming) : Branch :=
  if validated req then
    let path := pathCat doc_root req.target
    if (find (bytes "./api/v2/") path).isSome then .proxy
    else if (find (bytes "./robot/tips") path).isSome then .mission
    else if (find (bytes "./robot/configs") path).isSome then .configs
    else if req.method = .post then .posted
    else if req.method = .get then .got
    else .file (cstr path)
  else .refused

section Routing

/-- A dot and a text are found in the path under the current directory where the target
begins with the text, or behind a dot of the target. -/
theorem find_behind_dot {word target : List UInt8} :
    (find (46 :: word) (pathCat [46] target)).isSome ↔ word <+: target ∨ 46 :: word <:+: target := by
  have path : pathCat [46] target = 46 :: target := rfl
  rw [path, find_isSome_iff, List.infix_cons_iff, List.cons_prefix_cons]
  simp

theorem validated_starts {req : Incoming} (h : validated req = true) :
    req.target.head? = some 47 ∧ ¬ bytes ".." <:+: req.target := by
  simp only [validated, Bool.and_eq_true, decide_eq_true_eq, Option.isNone_iff_eq_none,
    find_eq_none_iff] at h
  exact ⟨h.1.1.2, h.1.2⟩

/-- The target begins with the route. -/
def starts (route : String) (target : List UInt8) : Prop := bytes route <+: target

/-- The route stands in the target behind a dot. -/
def strays (route : String) (target : List UInt8) : Prop := 46 :: bytes route <:+: target

instance starts.decidable (route : String) (target : List UInt8) :
    Decidable (starts route target) := inferInstanceAs (Decidable (_ <+: _))

instance strays.decidable (route : String) (target : List UInt8) :
    Decidable (strays route target) := inferInstanceAs (Decidable (_ <:+: _))

/-- A request that is not refused takes the first route that its target starts with or
holds behind a dot. -/
theorem branch_here {req : Incoming} (valid : validated req = true) :
    branch [46] req =
      if starts "/api/v2/" req.target ∨ strays "/api/v2/" req.target then .proxy
      else if starts "/robot/tips" req.target ∨ strays "/robot/tips" req.target then .mission
      else if starts "/robot/configs" req.target ∨ strays "/robot/configs" req.target then .configs
      else if req.method = .post then .posted
      else if req.method = .get then .got
      else .file (cstr (pathCat [46] req.target)) := by
  have api : bytes "./api/v2/" = 46 :: bytes "/api/v2/" := by decide
  have tips : bytes "./robot/tips" = 46 :: bytes "/robot/tips" := by decide
  have configs : bytes "./robot/configs" = 46 :: bytes "/robot/configs" := by decide
  rw [branch, if_pos valid, api, tips, configs]
  simp only [find_behind_dot]
  rfl

/-- The three branches are told apart by what the target begins with. -/
def RoutedByPrefix (req : Incoming) : Prop :=
  (branch [46] req = .proxy ↔ starts "/api/v2/" req.target) ∧
    (¬ starts "/api/v2/" req.target →
      (branch [46] req = .mission ↔ starts "/robot/tips" req.target)) ∧
    (¬ starts "/api/v2/" req.target → ¬ starts "/robot/tips" req.target →
      (branch [46] req = .configs ↔ starts "/robot/configs" req.target))

/-- No route strays in a target that starts neither with it nor with one before it. -/
def NoStray (target : List UInt8) : Prop :=
  ¬ starts "/api/v2/" target → ¬ strays "/api/v2/" target ∧
    (¬ starts "/robot/tips" target → ¬ strays "/robot/tips" target ∧
      (¬ starts "/robot/configs" target → ¬ strays "/robot/configs" target))

theorem routed_by_prefix_iff (req : Incoming) (valid : validated req = true) :
    RoutedByPrefix req ↔ NoStray req.target := by
  rw [RoutedByPrefix, NoStray, branch_here valid]
  by_cases api : starts "/api/v2/" req.target
  · simp [api]
  by_cases api' : strays "/api/v2/" req.target
  · simp [api, api']
  by_cases tips : starts "/robot/tips" req.target
  · simp [api, api', tips]
  by_cases tips' : strays "/robot/tips" req.target
  · simp [api, api', tips, tips']
  by_cases configs : starts "/robot/configs" req.target
  · simp [api, api', tips, tips', configs]
  by_cases configs' : strays "/robot/configs" req.target
  · simp [api, api', tips, tips', configs, configs']
  simp only [api, api', tips, tips', configs, configs', or_self, if_false]
  cases req.method <;> simp

/-- A mission request with a route in its query. -/
def missionQuery : Incoming := ⟨.post, bytes "/robot/tips?from=/robot/configs", [], []⟩

theorem missionQuery_routed : RoutedByPrefix missionQuery ↔ NoStray missionQuery.target :=
  routed_by_prefix_iff missionQuery (by decide)

/-- A file whose name holds the route of the robot. -/
def strayTarget : Incoming := ⟨.get, bytes "/map./api/v2/x", [], []⟩

theorem strayTarget_proxied : validated strayTarget = true ∧ ¬ RoutedByPrefix strayTarget := by
  refine ⟨by decide, fun routed => ?_⟩
  have proxied : branch [46] strayTarget = .proxy := by decide
  have other : ¬ starts "/api/v2/" strayTarget.target := by decide
  exact other (routed.1.mp proxied)

end Routing

section Files

/-- Empty components and dots are skipped, two dots take the last component away. -/
def resolveStep (resolved : List (List UInt8)) (component : List UInt8) : List (List UInt8) :=
  if component = [] ∨ component = bytes "." then resolved
  else if component = bytes ".." then resolved.dropLast
  else resolved ++ [component]

/-- Whether the path is absolute, and the components it resolves to. -/
def resolve (path : List UInt8) : Bool × List (List UInt8) :=
  (path.head? = some 47, (path.splitOn 47).foldl resolveStep [])

def Below (base path : Bool × List (List UInt8)) : Prop := base.1 = path.1 ∧ base.2 <+: path.2

theorem Below.refl (path : Bool × List (List UInt8)) : Below path path := ⟨rfl, List.prefix_refl _⟩

/-- Components that are no two dots only go deeper. -/
theorem foldl_resolveStep_prefix {components : List (List UInt8)}
    (down : ∀ c ∈ components, c ≠ bytes "..") (resolved : List (List UInt8)) :
    resolved <+: components.foldl resolveStep resolved := by
  induction components generalizing resolved with
  | nil => exact List.prefix_refl _
  | cons c cs ih =>
      refine List.IsPrefix.trans ?_ (ih (fun d hd => down d (List.mem_cons_of_mem _ hd)) _)
      rw [resolveStep]
      split
      · exact List.prefix_refl _
      · rw [if_neg (down c List.mem_cons_self)]
        exact List.prefix_append _ _

theorem infix_intercalate {sep component : List UInt8} {components : List (List UInt8)}
    (h : component ∈ components) : component <:+: sep.intercalate components := by
  induction components with
  | nil => cases h
  | cons c cs ih =>
      by_cases last : cs = []
      · subst last
        rw [List.mem_singleton.mp h, List.intercalate_singleton]
      · rw [List.intercalate_cons_of_ne_nil last]
        rcases List.mem_cons.mp h with rfl | later
        · exact ⟨[], sep ++ sep.intercalate cs, by simp⟩
        · exact (ih later).trans (List.suffix_append _ _).isInfix

theorem infix_of_component {s component : List UInt8} (h : component ∈ s.splitOn 47) :
    component <:+: s := by
  have inside : component <:+: [47].intercalate (s.splitOn 47) := infix_intercalate h
  rwa [List.intercalate_splitOn] at inside

/-- Behind a slash a path is resolved from where it was before. -/
theorem resolve_append (base t : List UInt8) :
    (resolve (base ++ 47 :: t)).2 = (t.splitOn 47).foldl resolveStep (resolve base).2 := by
  rw [resolve, List.splitOn_append_cons_self, List.foldl_append]
  rfl

/-- What follows doc_root is reached from doc_root, if no component of it is two dots. -/
theorem below_pathCat {doc_root t : List UInt8} (some_ : doc_root ≠ [])
    (down : ¬ bytes ".." <:+: t) :
    Below (resolve doc_root) (resolve (pathCat doc_root (47 :: t))) := by
  have deeper : ∀ c ∈ t.splitOn 47, c ≠ bytes ".." := by
    rintro c hc rfl
    exact down (infix_of_component hc)
  rw [pathCat, if_neg some_]
  split
  · case isTrue slash =>
      obtain ⟨front, rfl⟩ : ∃ front, doc_root = front ++ [47] :=
        ⟨_, (List.dropLast_append_getLast? 47 slash).symm⟩
      rw [List.dropLast_concat]
      refine ⟨?_, ?_⟩
      · cases front with
        | nil => rfl
        | cons c cs => rfl
      · rw [resolve_append, resolve_append]
        exact foldl_resolveStep_prefix deeper _
  · refine ⟨?_, ?_⟩
    · obtain ⟨c, cs, rfl⟩ := List.exists_cons_of_ne_nil some_
      rfl
    · rw [resolve_append]
      exact foldl_resolveStep_prefix deeper _

theorem cstr_append_of_mem {s : List UInt8} (h : 0 ∈ s) (t : List UInt8) :
    cstr (s ++ t) = cstr s := by
  have stops : (cstr s).length ≠ s.length := fun whole =>
    (cstr_eq_self_iff.mp ((List.takeWhile_prefix _).eq_of_length whole)) h
  rw [cstr, List.takeWhile_append]
  exact if_neg stops

theorem cstr_append_of_not_mem {s : List UInt8} (h : 0 ∉ s) (t : List UInt8) :
    cstr (s ++ t) = s ++ cstr t := by
  refine List.takeWhile_append_of_pos fun c hc => decide_eq_true ?_
  rintro rfl
  exact h hc

/-- A target is cut at a NUL behind doc_root; a NUL in doc_root cuts the target away. -/
theorem below_cstr_pathCat {doc_root target : List UInt8} (some_ : doc_root ≠ [])
    (slash : target.head? = some 47) (down : ¬ bytes ".." <:+: target) :
    Below (resolve (cstr doc_root)) (resolve (cstr (pathCat doc_root target))) := by
  obtain ⟨t, rfl⟩ := List.head?_eq_some_iff.mp slash
  by_cases nul : 0 ∈ doc_root
  · have same : cstr (pathCat doc_root (47 :: t)) = cstr doc_root := by
      rw [pathCat, if_neg some_]
      split
      · case isTrue ends =>
          obtain ⟨front, rfl⟩ : ∃ front, doc_root = front ++ [47] :=
            ⟨_, (List.dropLast_append_getLast? 47 ends).symm⟩
          have inside : 0 ∈ front := by simpa using nul
          rw [List.dropLast_concat, cstr_append_of_mem inside, cstr_append_of_mem inside]
      · exact cstr_append_of_mem nul _
    rw [same]
    exact .refl _
  · have front : 0 ∉ pathCat doc_root [] := by
      rw [pathCat, if_neg some_, List.append_nil]
      split
      · exact fun inside => nul (List.mem_of_mem_dropLast inside)
      · exact nul
    have path : cstr (pathCat doc_root (47 :: t)) = pathCat doc_root (47 :: cstr t) := by
      have base (u : List UInt8) : pathCat doc_root u = pathCat doc_root [] ++ u := by
        simp [pathCat, some_]
      rw [base, base (47 :: cstr t), cstr_append_of_not_mem front]
      rfl
    rw [cstr_eq_self nul, path]
    refine below_pathCat some_ fun inside => down ?_
    exact inside.trans ((List.takeWhile_prefix _).isInfix.trans (List.suffix_cons 47 t).isInfix)

/-- What is opened for a request lies under doc_root. -/
theorem opened_below {doc_root path : List UInt8} (some_ : doc_root ≠ []) {req : Incoming}
    (opened : branch doc_root req = .file path) : Below (resolve (cstr doc_root)) (resolve path) := by
  have valid : validated req = true := by
    by_contra refused
    rw [branch, if_neg refused] at opened
    cases opened
  have same : path = cstr (pathCat doc_root req.target) := by
    rw [branch, if_pos valid] at opened
    dsimp only at opened
    split at opened
    · cases opened
    split at opened
    · cases opened
    split at opened
    · cases opened
    split at opened
    · cases opened
    split at opened
    · cases opened
    · exact (Branch.file.inj opened).symm
  obtain ⟨slash, down⟩ := validated_starts valid
  rw [same]
  exact below_cstr_pathCat some_ slash down

theorem map_below :
    branch (bytes "./www/../maps/") ⟨.head, bytes "/a/./b", [], []⟩ =
        .file (bytes "./www/../maps/a/./b") ∧
      Below (resolve (bytes "./www/../maps/")) (resolve (bytes "./www/../maps/a/./b")) := by
  have opened : branch (bytes "./www/../maps/") ⟨.head, bytes "/a/./b", [], []⟩ =
      .file (bytes "./www/../maps/a/./b") := by decide
  exact ⟨opened, opened_below (by decide) opened⟩

end Files

end HZRobot.Http
