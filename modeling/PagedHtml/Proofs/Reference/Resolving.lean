/-
**What becomes of a reference that is resolved against a base.**

A reference that has an absolute form stays as it is where its scheme is written in small letters,
and a relative one stays under the scheme and the host of its base where the base has a path. Both
fail elsewhere: `http:` and `file:` in other letters do not count as schemes, and the last slash of
a base without a path is one of those before its host.

* `resolve_eq_self_iff`: which references stay as they are;
* `resolve_absolute_eq_iff`: which addresses on the web, data in place and files stay as they are;
* `directory_append`: a base up to its last slash;
* `origin_prefix_resolve_iff`: which references stay under the scheme and the host of their base.
-/

import Mathlib.Data.List.Basic
import PagedHtml.Codecs
import PagedHtml.Proofs.Text.Pieces
import PagedHtml.Reference

namespace PagedHtml

/-! ### Text at the start of text -/

namespace Text

theorem after?_eq_some_iff {lead chars rest : List Char} :
    after? lead chars = some rest ↔ chars = lead ++ rest := by
  induction lead generalizing chars with
  | nil => simp [after?]
  | cons l lead ih =>
    cases chars with
    | nil => simp [after?]
    | cons c chars =>
      rw [after?]
      split
      · next same => simp [ih, eq_of_beq same]
      · next other =>
        have differs : ¬ c = l := fun same => other (by simp [same])
        simp [differs]

theorem startsWith_iff {lead text : String} :
    startsWith lead text = true ↔ lead.toList <+: text.toList := by
  rw [startsWith, Option.isSome_iff_exists]
  exact exists_congr fun rest => after?_eq_some_iff.trans eq_comm

/-- The first letter of what starts with a text, letter case aside. -/
theorem exists_cons_of_startsIgnoringCase {l : Char} {lead chars : List Char}
    (starts : (afterIgnoringCase? (l :: lead) chars).isSome = true) :
    ∃ c rest, chars = c :: rest ∧ l.toLower = c.toLower := by
  cases chars with
  | nil => cases starts
  | cons c rest =>
    rw [afterIgnoringCase?] at starts
    split at starts
    · next same => exact ⟨c, rest, rfl, eq_of_beq same⟩
    · cases starts

/-- Characters are divided at the first place of a mark, if its first letter does not stand before
it. -/
theorem divideAtText?_append {m : Char} {mark before : List Char} (without : m ∉ before)
    (after : List Char) :
    divideAtText? (m :: mark) (before ++ (m :: mark) ++ after) = some (before, after) := by
  induction before with
  | nil =>
    have here : after? (m :: mark) (m :: (mark ++ after)) = some after :=
      after?_eq_some_iff.mpr rfl
    rw [List.nil_append, List.cons_append, divideAtText?, here]
  | cons c before ih =>
    obtain ⟨other, without⟩ := not_or.mp (mt List.mem_cons.mpr without)
    have notHere : after? (m :: mark) (c :: (before ++ (m :: mark) ++ after)) = none := by
      rw [after?, if_neg (by simpa using other)]
    rw [List.cons_append, List.cons_append, divideAtText?, notHere]
    simp only [ih without, Option.map_some]

end Text

namespace Reference

/-! ### The parts of a base -/

/-- The scheme and the host of a base that has both. -/
theorem origin?_append {scheme authority path : List Char} (noColon : ':' ∉ scheme)
    (noSlash : '/' ∉ authority) (rooted : ∀ c ∈ path.head?, c = '/') :
    origin? (scheme ++ "://".toList ++ (authority ++ path)) =
      some (scheme ++ "://".toList ++ authority) := by
  have host : (authority ++ path).takeWhile (· != '/') = authority := by
    have inHost : ∀ c ∈ authority, (c != '/') = true := fun c member =>
      bne_iff_ne.mpr fun same => noSlash (same ▸ member)
    rw [List.takeWhile_append_of_pos inHost]
    cases path with
    | nil => simp
    | cons c more => simp [rooted c rfl]
  have divided : Text.divideAtText? "://".toList (scheme ++ "://".toList ++ (authority ++ path)) =
      some (scheme, authority ++ path) := Text.divideAtText?_append noColon _
  rw [origin?, divided, Option.map_some]
  exact congrArg (fun host => some (scheme ++ "://".toList ++ host)) host

/-- The scheme and the host of a base are never empty. -/
theorem ne_nil_of_origin? {base origin : List Char} (found : origin? base = some origin) :
    origin ≠ [] := by
  obtain ⟨⟨scheme, rest⟩, -, rfl⟩ := Option.map_eq_some_iff.mp found
  simp

/-- A base up to its last slash. -/
theorem directory_append (before : List Char) {after : List Char} (noSlash : '/' ∉ after) :
    directory (before ++ '/' :: after) = before := by
  have divided : Text.divideAt? (· == '/') (before ++ '/' :: after).reverse =
      some (after.reverse, before.reverse) := by
    rw [List.reverse_append, List.reverse_cons, List.append_assoc, List.singleton_append]
    exact Text.divideAt?_append (mt List.mem_reverse.mp noSlash) _
  rw [directory, divided]
  exact List.reverse_reverse before

/-- What starts with a slash is divided at its last one, which may be the first. -/
theorem exists_last_slash (path : List Char) :
    ∃ before after, '/' :: path = before ++ '/' :: after ∧ '/' ∉ after ∧
      ∀ c ∈ before.head?, c = '/' := by
  obtain ⟨after, before, split, noSlash⟩ :=
    List.eq_append_cons_of_mem (List.mem_reverse.mpr (List.mem_cons_self : '/' ∈ '/' :: path))
  have divided : '/' :: path = before.reverse ++ '/' :: after.reverse := by
    simpa using congrArg List.reverse split
  refine ⟨before.reverse, after.reverse, divided, mt List.mem_reverse.mp noSlash, ?_⟩
  intro c first
  obtain ⟨more, start⟩ := List.head?_eq_some_iff.mp first
  rw [start] at divided
  exact (List.cons.inj divided).1.symm

/-! ### The shapes of a reference -/

section

variable {base reference : List Char}

/-- A reference that does not start with a slash is put into the directory of the base. -/
theorem resolveFrom_of_head (base : List Char) (relative : ∀ c ∈ reference.head?, c ≠ '/') :
    resolveFrom base reference = directory base ++ '/' :: reference := by
  rw [resolveFrom]
  · rintro rest rfl
    exact relative '/' rfl rfl
  · rintro rest rfl
    exact relative '/' rfl rfl

/-- A reference after one slash is put behind the scheme and the host of the base. -/
theorem resolveFrom_of_slash (base : List Char) (single : ¬ ['/', '/'] <+: '/' :: reference) :
    resolveFrom base ('/' :: reference) = (origin? base).getD [] ++ '/' :: reference := by
  rw [resolveFrom]
  rintro rest rfl
  exact single ⟨rest, rfl⟩

/-- **Which references stay as they are before a base**: only one after a single slash, and only
where the base has no host. -/
theorem resolveFrom_eq_self_iff :
    resolveFrom base reference = reference ↔
      ['/'] <+: reference ∧ ¬ ['/', '/'] <+: reference ∧ origin? base = none := by
  by_cases double : ['/', '/'] <+: reference
  · obtain ⟨rest, rfl⟩ := double
    have longer : resolveFrom base ('/' :: '/' :: rest) ≠ '/' :: '/' :: rest := by
      intro same
      have nothing := List.append_left_eq_self.mp same
      split at nothing <;> cases nothing
    simp [longer]
  · by_cases single : ['/'] <+: reference
    · obtain ⟨rest, rfl⟩ := single
      rw [List.singleton_append] at double ⊢
      rw [resolveFrom_of_slash base double, List.append_left_eq_self]
      cases found : origin? base with
      | none => simp [double]
      | some origin => simp [ne_nil_of_origin? found]
    · have relative : ∀ c ∈ reference.head?, c ≠ '/' := by
        rintro c first rfl
        obtain ⟨rest, rfl⟩ := List.head?_eq_some_iff.mp first
        exact single ⟨rest, rfl⟩
      have longer : directory base ++ '/' :: reference ≠ reference := fun same => by
        have lengths := congrArg List.length same
        simp only [List.length_append, List.length_cons] at lengths
        omega
      simp [resolveFrom_of_head base relative, longer, single]

end

/-! ### References that have an absolute form -/

/-- The schemes that count only in small letters. -/
def plainSchemes : List String := ["http://", "https://", "file:"]

theorem isAbsolute_iff {reference : String} :
    isAbsolute reference = true ↔
      isData reference = true ∨ ∃ scheme ∈ plainSchemes, scheme.toList <+: reference.toList := by
  simp only [isAbsolute, Bool.or_eq_true, Text.startsWith_iff, plainSchemes, List.mem_cons,
    List.not_mem_nil, or_false, exists_eq_or_imp, exists_eq_left]
  tauto

/-- **Which references stay as they are**: those in an absolute form, and what stands after a single
slash where the base has no host. -/
theorem resolve_eq_self_iff {reference : String} {base : Option String} :
    resolve reference base = reference ↔
      isAbsolute reference = true ∨ ∀ address ∈ base, ['/'] <+: reference.toList ∧
        ¬ ['/', '/'] <+: reference.toList ∧ origin? address.toList = none := by
  unfold resolve
  split
  · next absolute => simp [absolute]
  · next relative =>
    cases base with
    | none => simp
    | some address =>
      rw [← String.toList_inj, String.toList_ofList, resolveFrom_eq_self_iff]
      simp [relative]

section

variable [Encoding.PercentDecoder]

/-- What has the form of an address does not start with a slash. -/
theorem not_slash_starts {reference : String}
    (absolute : isRemote reference = true ∨ isData reference = true ∨
      (filePath? reference).isSome = true) :
    ¬ ['/'] <+: reference.toList := by
  have letter {l : Char} {lead : List Char} (other : l.toLower ≠ '/')
      (starts : (Text.afterIgnoringCase? (l :: lead) reference.toList).isSome = true) :
      ¬ ['/'] <+: reference.toList := by
    rintro ⟨rest, split⟩
    rw [← split] at starts
    obtain ⟨c, more, same, equal⟩ := Text.exists_cons_of_startsIgnoringCase starts
    obtain ⟨rfl, -⟩ := List.cons.inj same
    exact other equal
  rcases absolute with remote | data | file
  · rw [isRemote, Bool.or_eq_true] at remote
    rcases remote with plain | secure
    · exact letter (by decide) plain
    · exact letter (by decide) secure
  · exact letter (by decide) data
  · rw [filePath?, Option.isSome_map] at file
    exact letter (by decide) file

/-- **Which addresses on the web, data in place and files stay as they are** when they are resolved:
all where there is no base, and before a base data in place and the addresses whose scheme is
written in small letters. -/
theorem resolve_absolute_eq_iff {reference : String}
    (absolute : isRemote reference = true ∨ isData reference = true ∨
      (filePath? reference).isSome = true) (base : Option String) :
    resolve reference base = reference ↔
      base = none ∨ isData reference = true ∨
        ∃ scheme ∈ plainSchemes, scheme.toList <+: reference.toList := by
  rw [resolve_eq_self_iff, isAbsolute_iff]
  cases base with
  | none => simp
  | some address => simp [not_slash_starts absolute]

end

theorem resolve_absolute_small :
    isRemote "https://a/b" = true ∧
      resolve "https://a/b" (some "http://c/d") = "https://a/b" := by
  have remote : isRemote "https://a/b" = true := by decide
  refine ⟨remote, (resolve_absolute_eq_iff (.inl remote) _).mpr ?_⟩
  exact .inr (.inr ⟨"https://", by decide, by decide⟩)

/-- An address whose scheme is written in capitals is taken for a relative reference. -/
theorem resolve_capitals :
    isRemote "HTTP://a/b" = true ∧
      resolve "HTTP://a/b" (some "http://c/d") = "http://c/HTTP://a/b" ∧
      "http://c/HTTP://a/b" ≠ "HTTP://a/b" := by
  decide +kernel

/-! ### The scheme and the host of the result -/

section

variable {scheme authority path reference : List Char}

/-- The directory of a base with a path starts with its scheme and its host. -/
theorem exists_directory_eq (before rest : List Char) :
    ∃ tail, directory (before ++ '/' :: rest) = before ++ tail ∧ ∀ c ∈ tail.head?, c = '/' := by
  obtain ⟨tail, last, split, noSlash, rooted⟩ := exists_last_slash rest
  refine ⟨tail, ?_, rooted⟩
  rw [split, ← List.append_assoc, directory_append _ noSlash]

/-- The directory of a base without a path is its scheme and one slash. -/
theorem directory_of_host (scheme : List Char) (noSlash : '/' ∉ authority) :
    directory (scheme ++ "://".toList ++ authority) = scheme ++ [':', '/'] := by
  have split : scheme ++ "://".toList ++ authority = scheme ++ [':', '/'] ++ '/' :: authority := by
    simp
  rw [split, directory_append _ noSlash]

theorem slash_prefix_of_head? {tail : List Char} (rooted : ∀ c ∈ tail.head?, c = '/')
    (rest : List Char) : ['/'] <+: tail ++ '/' :: rest := by
  cases tail with
  | nil => exact ⟨rest, rfl⟩
  | cons c more =>
    obtain rfl := rooted c rfl
    exact ⟨more ++ '/' :: rest, rfl⟩

theorem origin_prefix_resolveFrom_iff (noColon : ':' ∉ scheme) (noSlash : '/' ∉ authority)
    (rooted : ∀ c ∈ path.head?, c = '/') (single : ¬ ['/', '/'] <+: reference) :
    scheme ++ "://".toList ++ authority ++ ['/'] <+:
        resolveFrom (scheme ++ "://".toList ++ authority ++ path) reference ↔
      path ≠ [] ∨ ['/'] <+: reference ∨ authority ++ ['/'] <+: reference := by
  by_cases absolutePath : ['/'] <+: reference
  · obtain ⟨rest, rfl⟩ := absolutePath
    have origin := origin?_append noColon noSlash rooted
    rw [← List.append_assoc] at origin
    rw [List.singleton_append] at single ⊢
    rw [resolveFrom_of_slash _ single, origin, Option.getD_some, List.prefix_append_right_inj]
    simp
  · have relative : ∀ c ∈ reference.head?, c ≠ '/' := by
      rintro c first rfl
      obtain ⟨rest, rfl⟩ := List.head?_eq_some_iff.mp first
      exact absolutePath ⟨rest, rfl⟩
    rw [resolveFrom_of_head _ relative]
    cases path with
    | nil =>
      have behind : scheme ++ [':', '/'] ++ '/' :: reference =
          scheme ++ "://".toList ++ reference := by simp
      rw [List.append_nil, directory_of_host scheme noSlash, behind, List.append_assoc _ authority,
        List.prefix_append_right_inj]
      simp [absolutePath]
    | cons c rest =>
      obtain rfl := rooted c rfl
      obtain ⟨tail, directory, rootedTail⟩ :=
        exists_directory_eq (scheme ++ "://".toList ++ authority) rest
      rw [directory, List.append_assoc _ tail, List.prefix_append_right_inj]
      simp [slash_prefix_of_head? rootedTail reference]

end

/-- **Which references stay under the scheme and the host of their base**: all where the base has a
path. Before a base without one only those after a slash do, and those that name the host again; any
other takes the place of the host. -/
theorem origin_prefix_resolve_iff {scheme authority path reference : String}
    (noColon : ':' ∉ scheme.toList) (noSlash : '/' ∉ authority.toList)
    (rooted : ∀ c ∈ path.toList.head?, c = '/') (relative : isAbsolute reference = false)
    (single : ¬ ['/', '/'] <+: reference.toList) :
    (scheme ++ "://" ++ authority ++ "/").toList <+:
        (resolve reference (some (scheme ++ "://" ++ authority ++ path))).toList ↔
      path ≠ "" ∨ ['/'] <+: reference.toList ∨
        (authority ++ "/").toList <+: reference.toList := by
  have resolved (base : String) :
      (resolve reference (some base)).toList = resolveFrom base.toList reference.toList := by
    simp [resolve, relative]
  have hasPath : path ≠ "" ↔ path.toList ≠ [] := by simp
  rw [resolved, hasPath]
  simp only [String.toList_append]
  exact origin_prefix_resolveFrom_iff noColon noSlash rooted single

theorem origin_prefix_resolve_path :
    "https://a.b/".toList <+: (resolve "d.png" (some "https://a.b/c/")).toList :=
  (@origin_prefix_resolve_iff "https" "a.b" "/c/" "d.png"
    (by decide) (by decide) (by simp) (by decide) (by decide)).mpr (.inl (by decide))

/-- Before a base without a path the reference takes the place of the host. -/
theorem resolve_beside_host :
    resolve "d.png" (some "https://a.b") = "https://d.png" ∧
      ¬ "https://a.b/".toList <+: "https://d.png".toList := by
  decide +kernel

end Reference

end PagedHtml
