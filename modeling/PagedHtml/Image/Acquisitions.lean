/-
**Acquiring all images at the same time.**

The acquirer is asked for all sources at the same time: a step either asks for a source, as seen
from the base, or takes the answer for one (`Acquisitions.Step`), in whatever order. An acquirer may
panic, which counts as an answer without bytes. Once every source has its answer, the answers are
collected in the order of the sources (`Acquisitions.collect`): bytes are stored by the source as it
was written, and a source without bytes is reported.

`acquireAll` collects the run that asks for one source after another.
-/

import PagedHtml.Diagnostic
import PagedHtml.Image

namespace PagedHtml.Image

/-! ### Asking the acquirer -/

/-- What an acquirer does when it is asked: it answers, or it panics. -/
inductive Answer where
  | answered (result : Except ImageError (List UInt8))
  | panicked

/-- The result of an answer. A panic is caught. -/
def Answer.result : Answer → Except ImageError (List UInt8)
  | answered result => result
  | panicked => .error .panicked

/-- How far the acquisition of a source is. -/
inductive Stage where
  | waiting
  | asked
  | finished (result : Except ImageError (List UInt8))

/-- The acquisitions of some sources while they are made: how far each of them is, in the order of
the sources, and what the acquirer has been asked for, in the order in which it was asked. -/
structure Acquisitions where
  stages : List (String × Stage)
  requests : List (String × String)

namespace Acquisitions

/-- Nothing is asked for yet. -/
def start (sources : List String) : Acquisitions :=
  ⟨sources.map fun source => (source, .waiting), []⟩

/-- **A step: the acquirer is asked for a source, or answers for one.** -/
inductive Step (respond : String → Answer) (base : Option String) :
    Acquisitions → Acquisitions → Prop
  | ask {before after : List (String × Stage)} {source : String}
      {requests : List (String × String)} :
      Step respond base ⟨before ++ (source, .waiting) :: after, requests⟩
        ⟨before ++ (source, .asked) :: after,
          requests ++ [(source, Reference.resolve source base)]⟩
  | answer {before after : List (String × Stage)} {source : String}
      {requests : List (String × String)} :
      Step respond base ⟨before ++ (source, .asked) :: after, requests⟩
        ⟨before ++ (source, .finished (respond (Reference.resolve source base)).result) :: after,
          requests⟩

/-- That every source has its answer. -/
def IsComplete (now : Acquisitions) : Prop :=
  ∀ entry ∈ now.stages, ∃ result, entry.2 = .finished result

/-- What acquisitions are in the end if one source is asked for after another. -/
def oneByOne (respond : String → Answer) (base : Option String) (sources : List String) :
    Acquisitions where
  stages := sources.map fun source =>
    (source, .finished (respond (Reference.resolve source base)).result)
  requests := sources.map fun source => (source, Reference.resolve source base)

/-! ### Collecting the answers -/

/-- Adds what is known of a source to a store, or reports that it is unavailable. -/
def collectEntry (store : ImageStore) : String × Stage → Reported ImageStore
  | (source, .finished (.ok bytes)) => pure (store.insert source bytes)
  | (source, .finished (.error error)) => do
    Reported.emit (.imageUnavailable source error.message)
    pure store
  | (_, .waiting) | (_, .asked) => pure store

/-- What is collected of complete acquisitions, in the order of the sources. -/
def collect (now : Acquisitions) : Reported ImageStore :=
  now.stages.foldlM collectEntry Keyed.empty

end Acquisitions

/-- The references that an acquirer is asked for, one for each source. -/
def references (sources : List String) (base : Option String) : List String :=
  sources.map fun source => Reference.resolve source base

/-- The store with the bytes of all sources that have any. -/
def acquireAll (acquirer : Acquirer) (sources : List String) (base : Option String) :
    Reported ImageStore :=
  (Acquisitions.oneByOne (fun reference => .answered (acquirer reference)) base sources).collect

end PagedHtml.Image
