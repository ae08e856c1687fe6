/-
**Images are acquired once for each source, in any order.**

The sources of a content are the references of its images that are not on the web, each once, in the
order in which they first come (`isFirsts_imageSources`). However the steps of acquiring them follow
each other, in the end each source has its own answer, so all runs collect the same.

* `Acquisitions.Kept`: what every step keeps, and so every run;
* `Acquisitions.exists_isComplete`: a run can always go on until it is complete;
* `Acquisitions.Reaches.stages_eq`: a complete run has the answers of the run that asks for one
  source after another, which is one of the runs (`Acquisitions.reaches_oneByOne`);
* `Acquisitions.Reaches.requests_perm`, `Acquisitions.Reaches.collect_eq`: so it has asked for each
  source once, and collects what `acquireAll` does;
* `get?_acquireAll`, `diagnostics_acquireAll`: the bytes of a source and the reports are those of
  its own answer.
-/

import PagedHtml.Content
import PagedHtml.Image.Acquisitions
import PagedHtml.Proofs.Folding
import PagedHtml.Proofs.Keyed
import Mathlib.Data.List.Perm.Basic
import Mathlib.Logic.Relation

namespace PagedHtml

namespace Content

/-- The references of all images that are not on the web, in the order of the text. -/
def localSources (content : Content) : List String := content.elements.filterMap localSource?

/-- The same of several contents. -/
def localSourcesAll (contents : List Content) : List String :=
  (elementsAll contents).filterMap localSource?

theorem elementsAll_append (first second : List Content) :
    elementsAll (first ++ second) = elementsAll first ++ elementsAll second := by
  induction first with
  | nil => rfl
  | cons content first ih => rw [List.cons_append, elementsAll, elementsAll, ih, List.append_assoc]

theorem localSourcesAll_element (data : StyledElement) (children rest : List Content) :
    localSourcesAll (element data children :: rest) =
      (localSource? data).toList ++ localSourcesAll (children ++ rest) := by
  rw [localSourcesAll, localSourcesAll, elementsAll_append, elementsAll, elements,
    List.cons_append, List.filterMap_cons]
  cases localSource? data <;> rfl

/-- A walk lists the references that it has not seen. -/
theorem mem_imageSourcesFrom_iff {seen : List String} {waiting : List Content} {source : String} :
    source ∈ imageSourcesFrom seen waiting ↔ source ∈ localSourcesAll waiting ∧ source ∉ seen := by
  fun_induction imageSourcesFrom seen waiting with
  | case1 => exact ⟨nofun, nofun⟩
  | case2 seen _ rest ih => exact ih
  | case3 seen data children rest other ih =>
    rw [ih, localSourcesAll_element, other]
    rfl
  | case4 seen data children rest known found listed ih =>
    rw [ih, localSourcesAll_element, found, Option.toList_some, List.singleton_append,
      List.mem_cons]
    refine and_congr_left fun unseen => (or_iff_right ?_).symm
    rintro rfl
    exact unseen listed
  | case5 seen data children rest known found unlisted ih =>
    rw [List.mem_cons, ih, localSourcesAll_element, found, Option.toList_some,
      List.singleton_append, List.mem_cons, List.mem_cons, not_or]
    by_cases same : source = known
    · simp [same, unlisted]
    · simp [same]

/-- **A walk lists references in the order in which they first come.** -/
theorem pairwise_imageSourcesFrom (seen : List String) (waiting : List Content) :
    (imageSourcesFrom seen waiting).Pairwise fun earlier later =>
      (localSourcesAll waiting).idxOf earlier < (localSourcesAll waiting).idxOf later := by
  -- One more reference in front, which is none of those listed, leaves their order as it is.
  have behind {values listed : List String} {known : String} (without : known ∉ listed)
      (ordered : listed.Pairwise fun earlier later => values.idxOf earlier < values.idxOf later) :
      listed.Pairwise fun earlier later =>
        (known :: values).idxOf earlier < (known :: values).idxOf later := by
    refine ordered.imp_of_mem fun {earlier later} first second less => ?_
    rw [idxOf_cons_of_ne (ne_of_mem_of_not_mem first without).symm,
      idxOf_cons_of_ne (ne_of_mem_of_not_mem second without).symm]
    exact Nat.add_lt_add_right less 1
  fun_induction imageSourcesFrom seen waiting with
  | case1 => exact List.Pairwise.nil
  | case2 seen _ rest ih => exact ih
  | case3 seen data children rest other ih =>
    rw [localSourcesAll_element, other]
    exact ih
  | case4 seen data children rest known found listed ih =>
    rw [localSourcesAll_element, found]
    exact behind (fun member => (mem_imageSourcesFrom_iff.mp member).2 listed) ih
  | case5 seen data children rest known found unlisted ih =>
    have without : known ∉ imageSourcesFrom (known :: seen) (children ++ rest) :=
      fun member => (mem_imageSourcesFrom_iff.mp member).2 List.mem_cons_self
    rw [localSourcesAll_element, found]
    refine List.pairwise_cons.mpr ⟨fun later member => ?_, behind without ih⟩
    rw [Option.toList_some, List.singleton_append, List.idxOf_cons_self,
      idxOf_cons_of_ne (ne_of_mem_of_not_mem member without).symm]
    exact Nat.succ_pos _

/-- **The sources of a content are its references of images that are not on the web**, each once. -/
theorem isFirsts_imageSources (content : Content) :
    IsFirsts content.imageSources content.localSources := by
  have alone : localSourcesAll [content] = content.localSources := by
    rw [localSourcesAll, elementsAll, elementsAll, List.append_nil, localSources]
  rw [← alone]
  refine ⟨fun source => ?_, pairwise_imageSourcesFrom [] [content]⟩
  exact mem_imageSourcesFrom_iff.trans (and_iff_left List.not_mem_nil)

end Content

namespace Image

/-! ### One source after another -/

/-- What is reported of a source: that it is unavailable, if the acquirer has no bytes for it. -/
def unavailable? (acquirer : Acquirer) (base : Option String) (source : String) :
    Option Diagnostic :=
  match acquirer (Reference.resolve source base) with
  | .ok _ => none
  | .error error => some (.imageUnavailable source error.message)

/-- Adds what the acquirer has for a source to a store, or reports that it has nothing. -/
def addSource (acquirer : Acquirer) (base : Option String) (store : ImageStore) (source : String) :
    Reported ImageStore :=
  Acquisitions.collectEntry store (source, .finished (acquirer (Reference.resolve source base)))

section

variable {acquirer : Acquirer} {base : Option String}

/-- What is collected of all sources is added one source after another. -/
theorem acquireAll_eq (sources : List String) :
    acquireAll acquirer sources base = sources.foldlM (addSource acquirer base) Keyed.empty :=
  List.foldlM_map

theorem get?_addSource (store : ImageStore) (first source : String) :
    (addSource acquirer base store first).value.get? source =
      (if source = first then (acquirer (Reference.resolve source base)).toOption else none).or
        (store.get? source) := by
  unfold addSource
  by_cases same : source = first
  · subst same
    cases acquirer (Reference.resolve source base) with
    | ok bytes => simp [Acquisitions.collectEntry, Keyed.get?_insert, Except.toOption]
    | error error =>
      rw [if_pos rfl]
      rfl
  · cases acquirer (Reference.resolve first base) with
    | ok bytes => simp [Acquisitions.collectEntry, Keyed.get?_insert, same]
    | error error =>
      rw [if_neg same]
      rfl

theorem diagnostics_addSource (store : ImageStore) (source : String) :
    (addSource acquirer base store source).diagnostics =
      (unavailable? acquirer base source).toList := by
  unfold addSource unavailable?
  cases acquirer (Reference.resolve source base) <;> rfl

theorem get?_foldlM (sources : List String) (store : ImageStore) (source : String) :
    (sources.foldlM (addSource acquirer base) store).value.get? source =
      (if source ∈ sources then (acquirer (Reference.resolve source base)).toOption else none).or
        (store.get? source) := by
  rw [Reported.value_foldlM,
    observe_foldl (fun store : ImageStore => store.get? source)
      fun store first => get?_addSource store first source,
    findSome?_ite_eq]
  simp only [List.mem_reverse]

/-- **The bytes of a source are those that the acquirer has for it**, and for it alone. -/
theorem get?_acquireAll (sources : List String) (source : String) :
    (acquireAll acquirer sources base).value.get? source =
      if source ∈ sources then (acquirer (Reference.resolve source base)).toOption else none := by
  rw [acquireAll_eq, get?_foldlM]
  exact Option.or_none

/-- **What is acquired for a source does not depend on what the acquirer has for others.** -/
theorem get?_acquireAll_congr {other : Acquirer} {source : String}
    (same : other (Reference.resolve source base) = acquirer (Reference.resolve source base))
    (sources : List String) :
    (acquireAll other sources base).value.get? source =
      (acquireAll acquirer sources base).value.get? source := by
  rw [get?_acquireAll, get?_acquireAll, same]

/-- **Each source without bytes is reported once**, in the order of the sources. -/
theorem diagnostics_acquireAll (sources : List String) :
    (acquireAll acquirer sources base).diagnostics =
      sources.filterMap (unavailable? acquirer base) := by
  rw [acquireAll_eq, Reported.diagnostics_foldlM diagnostics_addSource,
    List.filterMap_eq_flatMap_toList]

end

/-! ### All sources at the same time -/

def Stage.isWaiting : Stage → Bool
  | waiting => true
  | asked | finished _ => false

def Stage.isAsked : Stage → Bool
  | asked => true
  | waiting | finished _ => false

namespace Acquisitions

/-- The states that acquisitions of some sources can come to, in whatever order the steps are made.
-/
def Reaches (respond : String → Answer) (base : Option String) (sources : List String)
    (now : Acquisitions) : Prop :=
  Relation.ReflTransGen (Step respond base) (start sources) now

variable {respond : String → Answer} {base : Option String} {sources : List String}
  {now next : Acquisitions}

/-! ### What every step keeps -/

/-- What the acquirer has been asked for a source, by how far the source is. -/
def request? (base : Option String) : String × Stage → Option (String × String)
  | (_, .waiting) => none
  | (source, .asked) | (source, .finished _) => some (source, Reference.resolve source base)

/-- **What every run keeps**: the sources in their order, one request for each source that is under
way, and answers that are those of the acquirer. -/
structure Kept (respond : String → Answer) (base : Option String) (sources : List String)
    (now : Acquisitions) : Prop where
  sources_eq : now.stages.map Prod.fst = sources
  requests_perm : now.requests.Perm (now.stages.filterMap (request? base))
  answers : ∀ source result, (source, .finished result) ∈ now.stages →
    result = (respond (Reference.resolve source base)).result

theorem kept_start (respond : String → Answer) (base : Option String) (sources : List String) :
    Kept respond base sources (start sources) where
  sources_eq := by
    rw [start, List.map_map]
    exact List.map_id sources
  requests_perm := by
    have nothing : (start sources).stages.filterMap (request? base) = [] := by
      simp [start, request?]
    rw [nothing]
    exact List.Perm.refl _
  answers source result member := by simp [start] at member

/-- **A step keeps it.** -/
theorem Kept.step (kept : Kept respond base sources now) (step : Step respond base now next) :
    Kept respond base sources next := by
  cases step with
  | @ask before after source requests =>
    refine ⟨?_, ?_, fun other result member => kept.answers other result ?_⟩
    · simpa using kept.sources_eq
    · have perm := kept.requests_perm
      simp only [List.filterMap_append, List.filterMap_cons, request?] at perm ⊢
      exact ((List.perm_append_singleton _ _).trans (perm.cons _)).trans List.perm_middle.symm
    · simpa using member
  | @answer before after source requests =>
    refine ⟨?_, ?_, fun other result member => ?_⟩
    · simpa using kept.sources_eq
    · simpa [request?] using kept.requests_perm
    · rcases List.mem_append.mp member with earlier | here
      · exact kept.answers other result (List.mem_append_left _ earlier)
      · rcases List.mem_cons.mp here with same | later
        · cases same
          rfl
        · exact kept.answers other result
            (List.mem_append_right _ (List.mem_cons_of_mem _ later))

theorem Reaches.kept (reaches : Reaches respond base sources now) :
    Kept respond base sources now := by
  induction reaches with
  | refl => exact kept_start respond base sources
  | tail _ step ih => exact ih.step step

/-! ### Complete runs -/

/-- A complete run has the answer of the acquirer for each source. -/
theorem Reaches.stages_eq (reaches : Reaches respond base sources now) (complete : now.IsComplete) :
    now.stages = (oneByOne respond base sources).stages := by
  have kept := reaches.kept
  rw [oneByOne, ← kept.sources_eq, List.map_map]
  refine (List.map_id now.stages).symm.trans (List.map_congr_left fun entry member => ?_)
  obtain ⟨source, stage⟩ := entry
  obtain ⟨result, same⟩ := complete _ member
  obtain rfl : stage = .finished result := same
  rw [kept.answers source result member]
  rfl

/-- **Asking for one source after another is one of the runs**, and a complete one. -/
theorem reaches_oneByOne (respond : String → Answer) (base : Option String)
    (sources : List String) :
    Reaches respond base sources (oneByOne respond base sources) ∧
      (oneByOne respond base sources).IsComplete := by
  refine ⟨?_, fun entry member => ?_⟩
  · -- The sources before those that wait are answered, and have been asked for.
    have further (done rest : List String) :
        Relation.ReflTransGen (Step respond base)
          ⟨(oneByOne respond base done).stages ++ (start rest).stages,
            (oneByOne respond base done).requests⟩ (oneByOne respond base (done ++ rest)) := by
      induction rest generalizing done with
      | nil =>
        rw [start, List.map_nil, List.append_nil, List.append_nil]
      | cons source rest ih =>
        have later := ih (done ++ [source])
        rw [List.append_assoc, List.singleton_append] at later
        refine .head .ask (.head .answer ?_)
        simpa [oneByOne, start] using later
    exact further [] sources
  · obtain ⟨source, -, rfl⟩ := List.mem_map.mp member
    exact ⟨_, rfl⟩

/-- **A complete run has asked the acquirer once for each source**, by its address as seen from the
base. -/
theorem Reaches.requests_perm (reaches : Reaches respond base sources now)
    (complete : now.IsComplete) :
    now.requests.Perm (sources.map fun source => (source, Reference.resolve source base)) := by
  have perm := reaches.kept.requests_perm
  rw [reaches.stages_eq complete, oneByOne, List.filterMap_map] at perm
  rwa [← List.filterMap_eq_map]

/-- **A complete run collects what `acquireAll` does.** -/
theorem Reaches.collect_eq (reaches : Reaches respond base sources now)
    (complete : now.IsComplete) :
    now.collect = acquireAll (fun reference => (respond reference).result) sources base := by
  rw [collect, reaches.stages_eq complete]
  rfl

/-- How many steps remain: two for each source that is not asked for, and one for each that is. -/
def remaining (now : Acquisitions) : Nat :=
  2 * now.stages.countP (fun entry => entry.2.isWaiting) +
    now.stages.countP fun entry => entry.2.isAsked

/-- Each step is one of those that remain. -/
theorem Step.remaining_eq (step : Step respond base now next) :
    now.remaining = next.remaining + 1 := by
  cases step <;> simp [remaining, Stage.isWaiting, Stage.isAsked] <;> omega

/-- While a source has no answer, a step can be made. -/
theorem exists_step (respond : String → Answer) (base : Option String)
    (incomplete : ¬ now.IsComplete) : ∃ next, Step respond base now next := by
  rw [IsComplete] at incomplete
  push Not at incomplete
  obtain ⟨⟨source, stage⟩, member, unfinished⟩ := incomplete
  obtain ⟨stages, requests⟩ := now
  obtain ⟨before, after, rfl⟩ := List.append_of_mem member
  cases stage with
  | waiting => exact ⟨_, .ask⟩
  | asked => exact ⟨_, .answer⟩
  | finished result => exact absurd rfl (unfinished result)

/-- **A run can always go on until it is complete.** -/
theorem exists_isComplete (respond : String → Answer) (base : Option String)
    (now : Acquisitions) :
    ∃ final, Relation.ReflTransGen (Step respond base) now final ∧ final.IsComplete := by
  induction size : now.remaining using Nat.strongRecOn generalizing now with
  | ind size ih =>
    subst size
    by_cases complete : now.IsComplete
    · exact ⟨now, .refl, complete⟩
    · obtain ⟨next, step⟩ := exists_step respond base complete
      have fewer : next.remaining < now.remaining := by
        rw [step.remaining_eq]
        exact Nat.lt_succ_self _
      obtain ⟨final, further, complete⟩ := ih next.remaining fewer next rfl
      exact ⟨final, further.head step, complete⟩

end Acquisitions

end Image

end PagedHtml
