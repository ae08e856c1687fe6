/-
**References to images: addresses on the web, data in place, and files.**

What kind a reference has is told by its scheme, in any letter case (`isRemote`, `isData`,
`filePath?`). `resolve` makes a reference independent of the document that it stands in. It is
simpler than the resolution of a browser: there are no dot segments, and a reference that has an
absolute form stays as it is.
-/

import PagedHtml.Encoding.Codec
import PagedHtml.Text.Ascii

namespace PagedHtml.Reference

/-! ### Kinds of references -/

/-- Whether a reference is an address on the web. -/
def isRemote (reference : String) : Bool :=
  Text.startsIgnoringCase "http://" reference || Text.startsIgnoringCase "https://" reference

def isData (reference : String) : Bool := Text.startsIgnoringCase "data:" reference

/-- The host and the path of what follows the two slashes of an address. -/
def splitHost (authorityAndPath : List Char) : List Char × List Char :=
  authorityAndPath.span (· != '/')

/-- The path that a `file:` address names, of which the scheme is already taken: this machine needs
no name, and any other one keeps its name before the path. -/
def pathAfterScheme : List Char → List Char
  | '/' :: '/' :: rest =>
    let (host, path) := splitHost rest
    if host.isEmpty || Text.equalsIgnoringCase (String.ofList host) "localhost" then path
    else '/' :: '/' :: (host ++ path)
  | path => path

/-- An address up to its query or fragment. -/
def withoutQuery (address : List Char) : List Char :=
  address.takeWhile fun c => !(c == '?' || c == '#')

/-- The path of the file that a reference names, if it is a `file:` address. -/
def filePath? [Encoding.PercentDecoder] (reference : String) : Option String :=
  (Text.afterIgnoringCase? "file:".toList reference.toList).map fun rest =>
    let path := String.ofList (withoutQuery (pathAfterScheme rest))
    (Encoding.PercentDecoder.decodeText? path).getD path

/-! ### Resolving against a base -/

/-- Whether a reference is independent of any base. All schemes but `data:` count only in small
letters. -/
def isAbsolute (reference : String) : Bool :=
  Text.startsWith "http://" reference || Text.startsWith "https://" reference || isData reference ||
    Text.startsWith "file:" reference

/-- The scheme and host of a base, if it has a host. -/
def origin? (base : List Char) : Option (List Char) :=
  (Text.divideAtText? "://".toList base).map fun (scheme, rest) =>
    scheme ++ "://".toList ++ rest.takeWhile (· != '/')

/-- A base up to its last slash, which is left out. -/
def directory (base : List Char) : List Char :=
  match Text.divideAt? (· == '/') base.reverse with
  | some (_, before) => before.reverse
  | none => base

/-- A reference that is not absolute, resolved against a base: after two slashes only the scheme of
the base is used, after one slash its host too, and otherwise its directory. -/
def resolveFrom (base reference : List Char) : List Char :=
  match reference with
  | '/' :: '/' :: _ =>
    (if (Text.after? "https:".toList base).isSome then "https:" else "http:").toList ++ reference
  | '/' :: _ => (origin? base).getD [] ++ reference
  | _ => directory base ++ '/' :: reference

/-- The reference as seen from a base, if there is one. -/
def resolve (reference : String) (base : Option String) : String :=
  if isAbsolute reference then reference
  else
    match base with
    | none => reference
    | some base => String.ofList (resolveFrom base.toList reference.toList)

end PagedHtml.Reference
