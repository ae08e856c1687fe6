/-
**Composing primitives: styles, white space and runs of text.**

`Composer.render` walks a content from the outside in, counting as an outline does, and hands every
element to the renderer of its tag, with its number and the styles that apply (`contextOf`). What is
in an element that does not itself flow inline is bundled: neighbouring texts and inline elements
become one run of text, or nothing if they are all blank (`bundle`).
-/

import PagedHtml.Render.Registry
import PagedHtml.Selector
import PagedHtml.Style.Default

namespace PagedHtml.Render

/-! ### Runs of text -/

/-- Whether a primitive shows nothing but blanks. -/
def isBlank : Primitive → Bool
  | .literal text => Text.isBlankText text
  | .empty => true
  | _ => false

/-- The run of text of some inline primitives; none if they are all blank. -/
def runOf (run : List Primitive) : List Primitive :=
  if run.all isBlank then [] else [.text [] run]

/-- Bundles inline primitives, which are those paired with `true`; `run` holds those that wait for
the end of their run. -/
def bundleFrom (run : List Primitive) : List (Bool × Primitive) → List Primitive
  | [] => runOf run
  | (true, primitive) :: rest => bundleFrom (run ++ [primitive]) rest
  | (false, primitive) :: rest => runOf run ++ primitive :: bundleFrom [] rest

/-- Primitives with each maximal run of inline ones in a run of text. -/
def bundle (primitives : List (Bool × Primitive)) : List Primitive := bundleFrom [] primitives

def flowsInline : Content → Bool
  | .text _ => true
  | .element data _ => Tag.isInlineName data.tag

/-! ### The walk -/

/-- A style of a style sheet, with its selector if that is one of those that are known. -/
abbrev StyleRule := Option Selector × Style.Map

/-- What stays the same while a document is composed. -/
structure Composer where
  registry : Registry
  /-- The whole content, by number. -/
  outline : Outline
  /-- Whether a run of blanks in text is written as one space. -/
  collapseWhitespace : Bool
  /-- Whether the default styles of tags are left out. -/
  resetStyles : Bool
  stylesheets : List Style.Table
  images : ImageStore

namespace Composer

/-- The styles of all style sheets, in order. -/
def rules (composer : Composer) : List StyleRule :=
  composer.stylesheets.flatMap fun table =>
    table.entries.map fun (selector, style) => (Selector.parse? selector, style)

/-- The styles of the rules that are for the first element of a chain. -/
def matching (rules : List StyleRule) (chain : List StyledElement) : List Style.Map :=
  (rules.filter fun (selector, _) => selector.any fun s => s.matchesChain chain).map Prod.snd

/-- The styles that apply to an element: the default of its tag, matching rules, and its own. -/
def cascade (composer : Composer) (rules : List StyleRule) (element : StyledElement)
    (around : List StyledElement) : List Style.Map :=
  let defaults :=
    if composer.resetStyles then [] else (Style.Default.style? element.tag).toList
  defaults ++ matching rules (element :: around) ++ [element.style]

def literal (composer : Composer) (content : String) : Primitive :=
  .literal (if composer.collapseWhitespace then Text.collapse content else content)

/-- What is in an element, of which each part is already rendered. -/
def arrange (element : StyledElement) (children : List Content) (primitives : List Primitive) :
    List Primitive :=
  if Tag.isInlineName element.tag then primitives
  else bundle ((children.map flowsInline).zip primitives)

/-- What a renderer sees of an element that has a number and holds some children; `inside` is what
they are rendered as. -/
def contextOf (composer : Composer) (rules : List StyleRule) (around : List StyledElement)
    (id : Nat) (data : StyledElement) (children : List Content)
    (inside : Except RenderError (List Primitive)) : Context where
  outline := composer.outline
  node := id
  element := data
  childIds := Content.siblingIds (id + 1) children
  around := around
  style := composer.cascade rules data around
  stylesheets := composer.stylesheets
  images := composer.images
  children := inside

mutual

/-- Renders content that has a number; `around` holds the elements around it, the innermost first.
-/
def render (composer : Composer) (rules : List StyleRule) (around : List StyledElement) (id : Nat) :
    Content → Except RenderError Primitive
  | .text content => .ok (composer.literal content)
  | .element data children =>
    composer.registry.dispatch <| composer.contextOf rules around id data children <|
      (renderAll composer rules (data :: around) (id + 1) children).map (arrange data children)

/-- Renders siblings, the first of which has a number; the first error counts. -/
def renderAll (composer : Composer) (rules : List StyleRule) (around : List StyledElement)
    (id : Nat) : List Content → Except RenderError (List Primitive)
  | [] => .ok []
  | first :: rest => do
    let primitive ← render composer rules around id first
    let others ← renderAll composer rules around (id + first.size) rest
    return primitive :: others

end

def compose (composer : Composer) (content : Content) : Except RenderError Primitive :=
  composer.render composer.rules [] Outline.root content

end Composer

end PagedHtml.Render
