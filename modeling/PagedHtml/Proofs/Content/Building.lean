/-
**What building a content comes to.**

`Building.outcome` is the content or the error of a computation of `Building`, its diagnostics
aside. It takes each way of putting computations together to the same way of putting outcomes
together, so that a computation can be opened step by step.

* `outcome_convert_succ`: one generation of `Content.convert`, case by case;
* `mapM_eq_ok_iff`, `exists_of_mapM_eq_error`: what it means for a computation on each of several
  values to succeed, and to fail.
-/

import PagedHtml.Content.Building

namespace PagedHtml

section

variable {α β : Type}

/-- The result of a computation, or the error that ended it. -/
def Building.outcome (work : Building α) : Except BuildError α := work.run.value

namespace Building

theorem run_lift (reported : Reported α) :
    (liftM reported : Building α).run = ⟨.ok reported.value, reported.diagnostics⟩ := by
  show Reported.mk _ (reported.diagnostics ++ []) = _
  rw [List.append_nil]
  rfl

@[simp] theorem outcome_lift (reported : Reported α) :
    outcome (liftM reported : Building α) = .ok reported.value := rfl

@[simp] theorem outcome_bind (first : Building α) (next : α → Building β) :
    outcome (first >>= next) = (outcome first).bind fun value => outcome (next value) := by
  simp only [outcome, ExceptT.run_bind, Reported.value_bind]
  cases first.run.value <;> rfl

theorem outcome_mapM (step : α → Building β) (values : List α) :
    outcome (values.mapM step) = values.mapM fun value => outcome (step value) := by
  induction values with
  | nil => rfl
  | cons first rest ih =>
    simp only [List.mapM_cons, outcome_bind, ih]
    rfl

end Building

/-! ### Failures -/

section

variable {ε : Type}

/-- The failure of a result, if it is one. -/
def failure? : Except ε α → Option ε
  | .error failure => some failure
  | .ok _ => none

theorem failure?_eq_some_iff {result : Except ε α} {failure : ε} :
    failure? result = some failure ↔ result = .error failure := by
  cases result with
  | error other => simp [failure?]
  | ok value => exact ⟨nofun, nofun⟩

theorem failure?_eq_none_iff {result : Except ε α} :
    failure? result = none ↔ ∃ value, result = .ok value := by
  cases result with
  | error failure => exact ⟨nofun, nofun⟩
  | ok value => exact ⟨fun _ => ⟨value, rfl⟩, fun _ => rfl⟩

theorem failure?_map (f : α → β) (result : Except ε α) :
    failure? (result.map f) = failure? result := by
  cases result <;> rfl

theorem failure?_mapError {ε' : Type} (f : ε → ε') (result : Except ε α) :
    failure? (result.mapError f) = (failure? result).map f := by
  cases result <;> rfl

/-- **Where the failures of a step do not depend on the state, the first of them counts.** -/
theorem failure?_foldlM {step : β → α → Except ε β} {fails : α → Option ε}
    (each : ∀ state a, failure? (step state a) = fails a) (values : List α) (state : β) :
    failure? (values.foldlM step state) = values.findSome? fails := by
  induction values generalizing state with
  | nil => rfl
  | cons first rest ih =>
    rw [List.foldlM_cons, List.findSome?_cons, ← each state first]
    cases step state first with
    | error failure => rfl
    | ok next => exact ih next

end

/-! ### A computation on each of several values -/

section

variable {ε : Type} {step : α → Except ε β}

/-- A computation in two steps succeeds just if both steps do. -/
theorem bind_eq_ok_iff {first : Except ε α} {next : α → Except ε β} {result : β} :
    first >>= next = .ok result ↔ ∃ value, first = .ok value ∧ next value = .ok result := by
  cases first with
  | error failure => simp [bind, Except.bind]
  | ok value => simp [bind, Except.bind]

theorem map_eq_ok_iff {first : Except ε α} {f : α → β} {result : β} :
    first.map f = .ok result ↔ ∃ value, first = .ok value ∧ f value = result := by
  cases first with
  | error failure => simp [Except.map]
  | ok value => simp [Except.map]

theorem mapM_cons_eq_ok {first : α} {rest : List α} {results : List β} :
    (first :: rest).mapM step = .ok results ↔
      ∃ result others, step first = .ok result ∧ rest.mapM step = .ok others ∧
        results = result :: others := by
  rw [List.mapM_cons]
  cases step first with
  | error failure => simp [bind, Except.bind]
  | ok result =>
    cases rest.mapM step with
    | error failure => simp [bind, Except.bind]
    | ok others => simp [bind, Except.bind, pure, Except.pure, eq_comm]

/-- **A computation succeeds on several values just if it succeeds on each.** -/
theorem mapM_eq_ok_iff {values : List α} {results : List β} :
    values.mapM step = .ok results ↔
      results.length = values.length ∧ ∀ (place : Nat) value result,
        values[place]? = some value → results[place]? = some result → step value = .ok result := by
  induction values generalizing results with
  | nil => cases results <;> simp [pure, Except.pure]
  | cons first rest ih =>
    rw [mapM_cons_eq_ok]
    constructor
    · rintro ⟨result, others, here, later, rfl⟩
      obtain ⟨long, each⟩ := ih.mp later
      refine ⟨by simp [long], fun place value found valued resulted => ?_⟩
      cases place with
      | zero =>
        cases Option.some.inj valued
        cases Option.some.inj resulted
        exact here
      | succ place => exact each place value found (by simpa using valued) (by simpa using resulted)
    · rintro ⟨long, each⟩
      cases results with
      | nil => simp at long
      | cons result others =>
        refine ⟨result, others, each 0 first result rfl rfl, ih.mpr ⟨by simpa using long, ?_⟩, rfl⟩
        intro place value found valued resulted
        exact each (place + 1) value found (by simpa using valued) (by simpa using resulted)

/-- A computation that fails on several values fails on one of them. -/
theorem exists_of_mapM_eq_error {values : List α} {failure : ε}
    (failed : values.mapM step = .error failure) :
    ∃ value ∈ values, step value = .error failure := by
  induction values with
  | nil => simp [pure, Except.pure] at failed
  | cons first rest ih =>
    rw [List.mapM_cons] at failed
    cases here : step first with
    | error other =>
      rw [here] at failed
      cases failed
      exact ⟨first, List.mem_cons_self, here⟩
    | ok result =>
      rw [here] at failed
      cases later : rest.mapM step with
      | error other =>
        rw [later] at failed
        cases failed
        obtain ⟨value, member, fails⟩ := ih later
        exact ⟨value, List.mem_cons_of_mem _ member, fails⟩
      | ok others =>
        rw [later] at failed
        cases failed

end

end

/-! ### One generation -/

namespace Content

variable (document : Document) (computed : Option ComputedStyle)

/-- The style of an element is that of its attribute as the host overrides it. -/
theorem outcome_elementStyle (id : Nat) (data : Element) :
    (elementStyle computed id data).outcome =
      (withComputed computed id (attributeStyle data).value).mapError .invalidValue := by
  rw [elementStyle, Building.outcome_bind, Building.outcome_lift, Except.bind]
  split
  · next found =>
    rw [found]
    rfl
  · next failed =>
    rw [failed]
    rfl

/-- What an element reports is what its attribute gives rise to, whatever the host has computed. -/
theorem run_elementStyle (id : Nat) (data : Element) :
    (elementStyle computed id data).run =
      ⟨(withComputed computed id (attributeStyle data).value).mapError .invalidValue,
        (attributeStyle data).diagnostics⟩ := by
  have reported : (elementStyle computed id data).run.diagnostics =
      (attributeStyle data).diagnostics := by
    rw [elementStyle, ExceptT.run_bind, Reported.diagnostics_bind, Building.run_lift]
    dsimp only
    cases withComputed computed id (attributeStyle data).value <;> exact List.append_nil _
  rw [← reported, ← outcome_elementStyle]
  rfl

/-- What an element comes to, from what its children come to. -/
def outcomeOfElement (depth id : Nat) (data : Element) (children : List Nat) :
    Except BuildError Content :=
  (elementStyle computed id data).outcome.bind fun style =>
    (children.mapM fun child => (convert document computed depth child).outcome).bind fun images =>
      .ok (element ⟨Text.lower data.tag, data.attributes, style, 0⟩ (countSiblings images))

variable {document computed}

theorem outcomeOfElement_eq_ok_iff {depth id : Nat} {data : Element} {children : List Nat}
    {content : Content} :
    outcomeOfElement document computed depth id data children = .ok content ↔
      ∃ style images, (elementStyle computed id data).outcome = .ok style ∧
        (children.mapM fun child => (convert document computed depth child).outcome) = .ok images ∧
        content =
          element ⟨Text.lower data.tag, data.attributes, style, 0⟩ (countSiblings images) := by
  rw [outcomeOfElement]
  cases (elementStyle computed id data).outcome with
  | error failure => simp [Except.bind]
  | ok style =>
    cases children.mapM fun child => (convert document computed depth child).outcome with
    | error failure => simp [Except.bind]
    | ok images => simp [Except.bind, eq_comm]

/-- An element fails by its style or by one of its children. -/
theorem outcomeOfElement_eq_error {depth id : Nat} {data : Element} {children : List Nat}
    {failure : BuildError}
    (failed : outcomeOfElement document computed depth id data children = .error failure) :
    (elementStyle computed id data).outcome = .error failure ∨
      ∃ child ∈ children, (convert document computed depth child).outcome = .error failure := by
  rw [outcomeOfElement] at failed
  cases styled : (elementStyle computed id data).outcome with
  | error other =>
    rw [styled] at failed
    cases failed
    exact Or.inl rfl
  | ok style =>
    rw [styled] at failed
    cases made : children.mapM fun child => (convert document computed depth child).outcome with
    | error other =>
      rw [made] at failed
      cases failed
      exact Or.inr (exists_of_mapM_eq_error made)
    | ok images =>
      rw [made] at failed
      cases failed

variable (document computed)

/-- **One generation of building.** -/
theorem outcome_convert_succ (depth id : Nat) :
    (convert document computed (depth + 1) id).outcome =
      match document.get? id with
      | none => .error (.unsupportedKind "missing")
      | some node =>
        match node.kind with
        | .text content => .ok (text content)
        | .comment _ => .ok blank
        | .element data =>
          if isHidden computed id data then .ok blank
          else outcomeOfElement document computed depth id data node.children
        | kind => .error (.unsupportedKind kind.label) := by
  rw [convert]
  cases document.get? id with
  | none => rfl
  | some node =>
    cases kind : node.kind with
    | element data =>
      by_cases hidden : isHidden computed id data = true
      · simp only [kind, hidden, if_true]
        rfl
      · simp only [kind, hidden, Bool.false_eq_true, if_false, Building.outcome_bind,
          Building.outcome_mapM, outcomeOfElement]
        rfl
    | _ =>
      simp only [kind]
      rfl

end Content

end PagedHtml
