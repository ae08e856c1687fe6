/-
**A pass: from a document to a primitive.**

A pass builds the content of a document with its style sheets, acquires the images, and composes the
primitive, in a container with the style of the options. Style sheets of the options come before
those of the document. Diagnostics come in the order of these steps, though the style sheets of the
options are read after those of the document.

A pass takes any acquirer of images. The codecs of `PagedHtml.Codecs`, with which acquirers and JSON
texts are made where passes are run, come with this module and nothing in it depends on them.
-/

import PagedHtml.Codecs
import PagedHtml.Content.Building
import PagedHtml.Image.Acquisitions
import PagedHtml.Render.Composition
import PagedHtml.Render.Options
import PagedHtml.Render.Standard

namespace PagedHtml.Render

/-- Why there is no primitive for a document. -/
inductive PassError where
  | build (error : BuildError)
  | render (error : RenderError)
  deriving DecidableEq, Repr

def PassError.message : PassError → String
  | build error => error.message
  | render error => error.message

/-- Reads the style sheets of the options, acquires the images and composes the primitive. -/
def composeWith (options : Options) (registry : Registry) (acquirer : Acquirer)
    (documentSheets : List Style.Table) (content : Content) :
    Reported (Except RenderError Primitive) := do
  let optionSheets ← options.stylesheets.mapM Style.Table.ofText
  let images ← Image.acquireAll acquirer content.imageSources options.baseUrl
  let composer : Composer :=
    { registry := registry
      outline := content.outline
      collapseWhitespace := options.collapseWhitespace
      resetStyles := options.resetStyles
      stylesheets := optionSheets ++ documentSheets
      images := images }
  return (composer.compose content).map fun primitive => .container [options.style] [primitive]

/-- Renders a node of a document and what is below it. -/
def pass (options : Options) (registry : Registry) (acquirer : Acquirer) (document : Document)
    (computed : Option ComputedStyle) (root : Nat) : Reported (Except PassError Primitive) := do
  match ← (document.build computed root).run with
  | .error error => return .error (.build error)
  | .ok (sheets, content) =>
    let rendered ← composeWith options registry acquirer sheets content
    return rendered.mapError .render

end PagedHtml.Render
