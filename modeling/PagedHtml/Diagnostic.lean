/-
**Diagnostics: the problems that a document survives.**

A declaration outside the vocabulary, style sheet text that cannot be read and an image without
bytes each leave a gap in the result and a `Diagnostic` that describes it. `Reported` pairs a result
with the diagnostics that came up on the way, in order; a computation that may fail is an `ExceptT`
over it, so that a failure keeps the diagnostics that came before it.
-/

namespace PagedHtml

inductive Diagnostic.Kind where
  /-- A declaration named a property outside the vocabulary and was dropped. -/
  | unsupportedProperty (property : Option String)
  /-- Style sheet text could not be read and contributes nothing. -/
  | parseFailure (reason : String)
  /-- An image has no bytes and shows as nothing. -/
  | imageUnavailable (reason : String)
  deriving DecidableEq, Repr

/-- A problem, where it happened, and the value or text that caused it. -/
structure Diagnostic where
  kind : Diagnostic.Kind
  /-- Selectors, the tag of an element, or the word for an image. -/
  source : String
  value : String
  deriving DecidableEq, Repr

namespace Diagnostic

/-- The label of a kind, by which logs are told apart. -/
def Kind.label : Kind → String
  | unsupportedProperty _ => "css"
  | parseFailure _ => "css-parse"
  | imageUnavailable _ => "image"

/-- The property that the problem is about. -/
def property? (diagnostic : Diagnostic) : Option String :=
  match diagnostic.kind with
  | .unsupportedProperty property => property
  | _ => none

/-- Why the text or the image could not be had. -/
def reason? (diagnostic : Diagnostic) : Option String :=
  match diagnostic.kind with
  | .unsupportedProperty _ => none
  | .parseFailure reason => some reason
  | .imageUnavailable reason => some reason

/-- A declaration in `source` whose property is not in the vocabulary. -/
def unsupportedProperty (source property value : String) : Diagnostic :=
  ⟨.unsupportedProperty (some property), source, value⟩

def parseFailure (source text reason : String) : Diagnostic := ⟨.parseFailure reason, source, text⟩

def imageUnavailable (reference reason : String) : Diagnostic :=
  ⟨.imageUnavailable reason, "img", reference⟩

def display (diagnostic : Diagnostic) : String :=
  match diagnostic.kind with
  | .unsupportedProperty property =>
    diagnostic.source ++ ": found unsupported style \"" ++ property.getD "" ++ "\" with value \"" ++
      diagnostic.value ++ "\""
  | .parseFailure reason =>
    diagnostic.source ++ ": failed to parse \"" ++ diagnostic.value ++ "\": " ++ reason
  | .imageUnavailable reason => "could not load image '" ++ diagnostic.value ++ "': " ++ reason

end Diagnostic

/-! ### Results with diagnostics -/

/-- A value, and the diagnostics that came up while it was made, in order. -/
structure Reported (α : Type) where
  value : α
  diagnostics : List Diagnostic

namespace Reported

variable {α β : Type}

def silent (value : α) : Reported α := ⟨value, []⟩

def emit (diagnostic : Diagnostic) : Reported Unit := ⟨(), [diagnostic]⟩

/-- Goes on with the value; what the second part reports comes after what the first part did. -/
def andThen (first : Reported α) (next : α → Reported β) : Reported β :=
  let second := next first.value
  ⟨second.value, first.diagnostics ++ second.diagnostics⟩

instance : Monad Reported where
  pure := silent
  bind := andThen

@[simp] theorem value_pure (value : α) : (pure value : Reported α).value = value := rfl

@[simp] theorem diagnostics_pure (value : α) : (pure value : Reported α).diagnostics = [] := rfl

@[simp] theorem value_bind (first : Reported α) (next : α → Reported β) :
    (first >>= next).value = (next first.value).value := rfl

@[simp] theorem diagnostics_bind (first : Reported α) (next : α → Reported β) :
    (first >>= next).diagnostics = first.diagnostics ++ (next first.value).diagnostics := rfl

instance : LawfulMonad Reported :=
  LawfulMonad.mk' Reported
    (by intro α first; cases first; simp [Functor.map, andThen, silent])
    (by intro α β value next; simp [Bind.bind, Pure.pure, andThen, silent])
    (by intro α β γ first next last; simp [Bind.bind, andThen, List.append_assoc])

end Reported

end PagedHtml
