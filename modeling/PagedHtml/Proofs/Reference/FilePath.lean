/-
**The path that a `file:` address names is the one that was written.**

A path is written byte by byte, each by a percent sign and the two digits of its number or, if it is
one of the ASCII characters other than `%`, `?` and `#`, by itself; the slashes of the path always
stand for themselves (`WritesPath`). So neither a slash in the query nor one that is
percent-encoded is taken for one of the path, and nothing in the path for the mark of a query.

* `WritesPath.writes`, `WritesPath.notMem_query`: a written path is percent-encoded text without
  marks of a query;
* `pathAfterScheme_authority`, `pathAfterScheme_of_single`: what the host and the path are;
* `filePath?_of_pathAfterScheme`: the path is decoded after the query is taken away;
* `filePath?_written`: the forms of an address of this machine name the path, and one with another
  host names the path behind the host.
-/

import PagedHtml.Proofs.Codecs
import PagedHtml.Proofs.Encoding.Percent
import PagedHtml.Proofs.Text.LetterCase
import PagedHtml.Reference

namespace PagedHtml.Reference

open Encoding (ofUtf8?_utf8 utf8 utf8_ofList Percent.Writes PercentDecoder)
open Text (isAscii WritesHex)

/-- **The ways to write a path**: each byte by a percent sign and two digits, or an ASCII character
by itself, but for those that mean something else in an address. A slash is always written by
itself. -/
inductive WritesPath : List Char → List UInt8 → Prop
  | nil : WritesPath [] []
  | digits {first second : Char} {byte : UInt8} {chars : List Char} {bytes : List UInt8} :
      byte ≠ '/'.toUInt8 → WritesHex [first, second] byte.toNat → WritesPath chars bytes →
      WritesPath ('%' :: first :: second :: chars) (byte :: bytes)
  | plain {c : Char} {chars : List Char} {bytes : List UInt8} :
      isAscii c = true → c ∉ ['%', '?', '#'] → WritesPath chars bytes →
      WritesPath (c :: chars) (c.toUInt8 :: bytes)

/-- That a query or a fragment starts here, or that there is none. -/
def IsQuery (tail : List Char) : Prop := ∀ c ∈ tail.head?, c = '?' ∨ c = '#'

variable {chars host scheme written tail : List Char} {bytes : List UInt8} {path : String}

/-! ### Written paths -/

namespace WritesPath

theorem writes (writes : WritesPath chars bytes) : Percent.Writes chars bytes := by
  induction writes with
  | nil => exact .nil
  | digits _ hex _ ih => exact .digits hex ih
  | plain ascii other _ ih =>
    exact .plain ascii (fun sign => other (sign ▸ List.mem_cons_self)) ih

/-- There is no mark of a query in a written path. -/
theorem notMem_query (writes : WritesPath chars bytes) : ∀ c ∈ chars, ¬ (c = '?' ∨ c = '#') := by
  have noDigit {c : Char} {v : Nat} (value : Text.hexValue? c = some v) :
      ¬ (c = '?' ∨ c = '#') := by
    rintro (rfl | rfl) <;> cases value
  induction writes with
  | nil => exact nofun
  | digits _ hex _ ih =>
    obtain ⟨high, low, highValue, lowValue, -⟩ := Encoding.Percent.hexValue?_of_writesHex hex
    simp only [List.forall_mem_cons]
    exact ⟨by decide, noDigit highValue, noDigit lowValue, ih⟩
  | plain _ other _ ih =>
    refine List.forall_mem_cons.mpr ⟨?_, ih⟩
    rintro (rfl | rfl) <;> exact other (by decide)

/-- A slash of the path is written by itself. -/
theorem of_slash (writes : WritesPath chars ('/'.toUInt8 :: bytes)) :
    ∃ rest, chars = '/' :: rest ∧ WritesPath rest bytes := by
  generalize whole : '/'.toUInt8 :: bytes = slashed at writes
  cases writes with
  | nil => cases whole
  | digits other _ _ => exact absurd (List.cons.inj whole).1.symm other
  | @plain c rest _ ascii _ later =>
    obtain ⟨same, rfl⟩ := List.cons.inj whole
    obtain rfl := Encoding.eq_of_toUInt8_eq rfl ascii same
    exact ⟨rest, rfl, later⟩

/-- A slash by itself is one of the path. -/
theorem slash_of (writes : WritesPath ('/' :: chars) bytes) :
    ∃ rest, bytes = '/'.toUInt8 :: rest ∧ WritesPath chars rest := by
  generalize whole : '/' :: chars = slashed at writes
  cases writes with
  | nil => cases whole
  | digits _ _ _ => exact absurd (List.cons.inj whole).1 (by decide)
  | @plain c _ rest _ _ later =>
    obtain ⟨rfl, rfl⟩ := List.cons.inj whole
    exact ⟨rest, rfl, later⟩

/-- **A path from the root starts with a slash where it is written**, and with two only if it does
itself. -/
theorem exists_rest (writes : WritesPath written (utf8 path))
    (rooted : path.toList.head? = some '/') :
    ∃ rest, written = '/' :: rest ∧
      (¬ "//".toList <+: path.toList → rest.head? ≠ some '/') := by
  obtain ⟨others, whole⟩ : ∃ others, path.toList = '/' :: others := List.head?_eq_some_iff.mp rooted
  have started : utf8 path = '/'.toUInt8 :: utf8 (String.ofList others) := by
    rw [← String.ofList_toList (s := path), whole]
    exact (Encoding.utf8_ofList_eq_cons_iff rfl).mpr ⟨others, rfl, rfl⟩
  rw [started] at writes
  obtain ⟨rest, rfl, later⟩ := writes.of_slash
  refine ⟨rest, rfl, fun single second => single ?_⟩
  obtain ⟨further, rfl⟩ := List.head?_eq_some_iff.mp second
  obtain ⟨bytes, same, -⟩ := later.slash_of
  obtain ⟨more, rfl, -⟩ := (Encoding.utf8_ofList_eq_cons_iff rfl).mp same
  rw [whole]
  exact ⟨more, rfl⟩

end WritesPath

/-! ### The parts of an address -/

theorem withoutQuery_append (unmarked : ∀ c ∈ chars, ¬ (c = '?' ∨ c = '#'))
    (isQuery : IsQuery tail) : withoutQuery (chars ++ tail) = chars := by
  have kept : ∀ c ∈ chars, (!(c == '?' || c == '#')) = true := by
    intro c member
    simpa [not_or] using unmarked c member
  rw [withoutQuery, List.takeWhile_append_of_pos kept]
  cases tail with
  | nil => rw [List.takeWhile_nil, List.append_nil]
  | cons c tail =>
    have mark : c = '?' ∨ c = '#' := isQuery c rfl
    rw [List.takeWhile_cons_of_neg (by rcases mark with rfl | rfl <;> decide), List.append_nil]

/-- **After two slashes stands the host**, up to the next slash. -/
theorem pathAfterScheme_authority (slashless : '/' ∉ host) (behind : List Char) :
    pathAfterScheme ("//".toList ++ (host ++ '/' :: behind)) =
      if host = [] ∨ host.map Char.toLower = "localhost".toList then '/' :: behind
      else "//".toList ++ host ++ '/' :: behind := by
  have split : splitHost (host ++ '/' :: behind) = (host, '/' :: behind) := by
    have kept : ∀ c ∈ host, (c != '/') = true := fun c member =>
      bne_iff_ne.mpr fun same => slashless (same ▸ member)
    rw [splitHost, List.span_eq_takeWhile_dropWhile, List.takeWhile_append_of_pos kept,
      List.dropWhile_append_of_pos kept, List.takeWhile_cons_of_neg (by decide),
      List.dropWhile_cons_of_neg (by decide), List.append_nil]
  have here : (host.isEmpty || Text.equalsIgnoringCase (String.ofList host) "localhost") = true ↔
      host = [] ∨ host.map Char.toLower = "localhost".toList := by
    rw [Bool.or_eq_true, List.isEmpty_iff, Text.equalsIgnoringCase, beq_iff_eq,
      String.toList_ofList]
    rfl
  have opened : pathAfterScheme ("//".toList ++ (host ++ '/' :: behind)) =
      let parts := splitHost (host ++ '/' :: behind)
      if parts.1.isEmpty || Text.equalsIgnoringCase (String.ofList parts.1) "localhost" then parts.2
      else '/' :: '/' :: (parts.1 ++ parts.2) := rfl
  rw [opened, split]
  exact if_congr here rfl rfl

/-- Without two slashes there is no host. -/
theorem pathAfterScheme_of_single (single : ¬ "//".toList <+: chars) :
    pathAfterScheme chars = chars := by
  unfold pathAfterScheme
  split
  · exact absurd ⟨_, rfl⟩ single
  · rfl

section

variable [PercentDecoder] (lawful : PercentDecoder.Lawful)

include lawful

/-- **The path of an address is decoded after the query is taken away.** -/
theorem filePath?_of_pathAfterScheme (front : List Char) {address : List Char}
    (isScheme : scheme.map Char.toLower = "file:".toList)
    (named : pathAfterScheme address = front ++ (written ++ tail))
    (plain : ∀ c ∈ front, c ∉ ['%', '?', '#']) (writes : WritesPath written (utf8 path))
    (isQuery : IsQuery tail) :
    filePath? (String.ofList (scheme ++ address)) = some (String.ofList front ++ path) := by
  have behind : Text.afterIgnoringCase? "file:".toList (scheme ++ address) = some address :=
    Text.afterIgnoringCase?_eq_some_iff.mpr ⟨scheme, rfl, isScheme⟩
  have unmarked : ∀ c ∈ front ++ written, ¬ (c = '?' ∨ c = '#') := by
    refine List.forall_mem_append.mpr ⟨fun c member => ?_, writes.notMem_query⟩
    rintro (rfl | rfl) <;> exact plain _ member (by decide)
  have cut : withoutQuery (pathAfterScheme address) = front ++ written := by
    rw [named, ← List.append_assoc, withoutQuery_append unmarked isQuery]
  have bytes : PercentDecoder.decode (utf8 (String.ofList (front ++ written))) =
      utf8 (String.ofList front ++ path) := by
    rw [Encoding.Percent.decode_append lawful fun member => plain _ member List.mem_cons_self,
      writes.writes.decode_eq lawful, ← String.ofList_toList (s := path), ← String.ofList_append,
      utf8_ofList, utf8_ofList, utf8_ofList, List.flatMap_append]
  rw [filePath?, String.toList_ofList (l := scheme ++ address), behind]
  simp only [Option.map_some, cut, lawful.decodeText?_eq, bytes, ofUtf8?_utf8, Option.getD_some]

/-- **A `file:` address names the path that was written in it**: after two slashes, after the name
of this machine in any letter case, and right after the scheme if the path has not two slashes at
its front; another host stands before the path. -/
theorem filePath?_written (isScheme : scheme.map Char.toLower = "file:".toList)
    (rooted : path.toList.head? = some '/') (writes : WritesPath written (utf8 path))
    (isQuery : IsQuery tail) :
    filePath? (String.ofList (scheme ++ ("//".toList ++ (written ++ tail)))) = some path ∧
      (∀ host : List Char, host.map Char.toLower = "localhost".toList →
        filePath? (String.ofList (scheme ++ ("//".toList ++ (host ++ (written ++ tail))))) =
          some path) ∧
      (¬ "//".toList <+: path.toList →
        filePath? (String.ofList (scheme ++ (written ++ tail))) = some path) ∧
      ∀ host : List Char, host ≠ [] → (∀ c ∈ host, c ∉ ['/', '?', '#', '%']) →
        host.map Char.toLower ≠ "localhost".toList →
        filePath? (String.ofList (scheme ++ ("//".toList ++ (host ++ (written ++ tail))))) =
          some ("//" ++ String.ofList host ++ path) := by
  obtain ⟨rest, rfl, single⟩ := writes.exists_rest rooted
  have onHost {host : List Char} (slashless : '/' ∉ host) :=
    pathAfterScheme_authority slashless (rest ++ tail)
  have none : ∀ c ∈ ([] : List Char), c ∉ ['%', '?', '#'] := nofun
  have nameless : some (String.ofList [] ++ path) = some path := congrArg some String.empty_append
  refine ⟨?_, fun host here => ?_, fun unslashed => ?_, fun host named without other => ?_⟩
  · exact (filePath?_of_pathAfterScheme lawful [] isScheme (onHost List.not_mem_nil) none writes
      isQuery).trans nameless
  · have slashless : '/' ∉ host := by
      intro member
      have lowered : Char.toLower '/' ∈ "localhost".toList := here ▸ List.mem_map_of_mem member
      revert lowered
      decide
    have named := (onHost slashless).trans (if_pos (.inr here))
    exact (filePath?_of_pathAfterScheme lawful [] isScheme named none writes
      isQuery).trans nameless
  · have unhosted : ¬ "//".toList <+: '/' :: rest ++ tail := by
      rintro ⟨more, whole⟩
      have second : rest ++ tail = '/' :: more := (List.cons.inj whole).2.symm
      cases rest with
      | nil =>
        rw [List.nil_append] at second
        exact absurd (isQuery '/' (second ▸ rfl)) (by decide)
      | cons c rest => exact single unslashed (congrArg some (List.cons.inj second).1)
    exact (filePath?_of_pathAfterScheme lawful [] isScheme (pathAfterScheme_of_single unhosted)
      none writes isQuery).trans nameless
  · have slashless : '/' ∉ host := fun member => without _ member List.mem_cons_self
    have slash : '/' ∉ ['%', '?', '#'] := by decide
    have plain : ∀ c ∈ '/' :: '/' :: host, c ∉ ['%', '?', '#'] := by
      refine List.forall_mem_cons.mpr ⟨slash, List.forall_mem_cons.mpr ⟨slash, fun c member => ?_⟩⟩
      have other := without c member
      simp only [List.mem_cons, List.not_mem_nil, or_false, not_or] at other ⊢
      exact ⟨other.2.2.2, other.2.1, other.2.2.1⟩
    have front : String.ofList ("//".toList ++ host) = "//" ++ String.ofList host :=
      String.ofList_append
    rw [← front]
    exact filePath?_of_pathAfterScheme lawful _ isScheme
      ((onHost slashless).trans (if_neg (not_or.mpr ⟨named, other⟩))) plain writes isQuery

end

/-- A path with a space and a slash before a query with another slash, on this machine and another.
-/
theorem filePath?_written_space :
    filePath? "FILE:///a%20b?x/y" = some "/a b" ∧
      filePath? "FILE://LocalHost/a%20b?x/y" = some "/a b" ∧
      filePath? "FILE:/a%20b?x/y" = some "/a b" ∧
      filePath? "FILE://server/a%20b?x/y" = some "//server/a b" := by
  have isScheme : "FILE:".toList.map Char.toLower = "file:".toList := by decide
  have bytes : utf8 "/a b" = ['/'.toUInt8, 'a'.toUInt8, 32, 'b'.toUInt8] := by decide
  have writes : WritesPath "/a%20b".toList (utf8 "/a b") :=
    bytes ▸ .plain rfl (by decide) (.plain rfl (by decide) (.digits (by decide) ⟨0, rfl⟩
      (.plain rfl (by decide) .nil)))
  have isQuery : IsQuery "?x/y".toList := fun c member => .inl (Option.some.inj member).symm
  obtain ⟨slashes, machine, single, other⟩ :=
    filePath?_written lawful_percentDecoder isScheme (by decide : "/a b".toList.head? = some '/')
      writes isQuery
  exact ⟨slashes, machine "LocalHost".toList (by decide), single (by decide),
    other "server".toList (by decide) (by simp) (by decide)⟩

end PagedHtml.Reference
