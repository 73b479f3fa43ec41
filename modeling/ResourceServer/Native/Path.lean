import Mathlib.Data.List.DropRight
import Mathlib.Tactic.Common

/-!
# Path strings

What the upload handler uses of `std::filesystem::path`, for both formats of path
strings: on POSIX a `/` separates and no root has a name; on Windows a `\` separates
as well, and a root may be that of a drive or of a host.
-/

namespace ResourceServer

/-- The format of the path strings of a platform. -/
inductive PathFormat
  | posix
  | windows
  deriving DecidableEq, Repr

namespace PathFormat

/-- `preferred_separator`. -/
def preferredSeparator : PathFormat → Char
  | .posix => '/'
  | .windows => '\\'

/-- The characters between the components of a path. -/
def isSeparator (fmt : PathFormat) (c : Char) : Bool := c = '/' || c = fmt.preferredSeparator

/-- The length of the root name a Windows path begins with: a letter and a colon; a device, such
as `\\?` or `\\.`, with one separator behind it; or two separators and the name of a host. -/
def windowsRootName : List Char → Nat
  | [] | [_] => 0
  | [letter, colon] => if letter.isAlpha && colon = ':' then 2 else 0
  | a :: b :: c :: rest =>
    let sep := isSeparator .windows
    if a.isAlpha && b = ':' then 2
    else if !sep a then 0
    else if (sep b && (c = '?' || c = '.') || b = '?' && c = '?') &&
        rest.head?.any sep && !(rest.drop 1).head?.any sep then 3
    else if sep b && !sep c then 3 + (rest.takeWhile (!sep ·)).length
    else 0

/-- The length of `root_name ()`. -/
def rootNameLength : PathFormat → List Char → Nat
  | .posix, _ => 0
  | .windows, path => windowsRootName path

/-- `has_root_directory ()`. -/
def hasRootDirectory (fmt : PathFormat) (path : List Char) : Bool :=
  (path.drop (fmt.rootNameLength path)).head?.any fmt.isSeparator

/-- `is_absolute ()`: on Windows a root directory alone does not tell the drive, and a drive alone
not the directory; the name of a host or device is enough. -/
def isAbsolute : PathFormat → List Char → Bool
  | .posix, path => hasRootDirectory .posix path
  | .windows, path =>
    let name := rootNameLength .windows path
    if name = 2 then hasRootDirectory .windows path else 0 < name

/-- Whether a separator is put between a path and what is appended: not behind another one, and
behind a root name alone only if it is not that of a drive. -/
def needsSeparator (fmt : PathFormat) (path : List Char) : Bool :=
  if path.length = fmt.rootNameLength path then 3 ≤ path.length
  else !path.getLast?.any fmt.isSeparator

/-- `operator/`: an absolute right side replaces the left, as one with another root name does; one
with a root directory keeps no more of it than the root name. -/
def append (fmt : PathFormat) (p q : List Char) : List Char :=
  let nameP := fmt.rootNameLength p
  let nameQ := fmt.rootNameLength q
  if fmt.isAbsolute q || 0 < nameQ && p.take nameP != q.take nameQ then q
  else if fmt.hasRootDirectory q then p.take nameP ++ q.drop nameQ
  else if fmt.needsSeparator p then p ++ fmt.preferredSeparator :: q.drop nameQ
  else p ++ q.drop nameQ

/-- The path without its last name and the separators before that. -/
def dirname (fmt : PathFormat) (path : List Char) : List Char :=
  (path.rdropWhile (!fmt.isSeparator ·)).rdropWhile fmt.isSeparator

/-- `parent_path ()`: the root, with the separators behind it, stays as it is. -/
def parent (fmt : PathFormat) (path : List Char) : List Char :=
  let name := path.take (fmt.rootNameLength path)
  let rest := path.drop (fmt.rootNameLength path)
  name ++ rest.takeWhile fmt.isSeparator ++ fmt.dirname (rest.dropWhile fmt.isSeparator)

end PathFormat

/-- `operator/`. -/
def pathAppend (fmt : PathFormat) (p q : String) : String :=
  String.ofList (fmt.append p.toList q.toList)

/-- `parent_path ()`. -/
def parentPath (fmt : PathFormat) (p : String) : String := String.ofList (fmt.parent p.toList)

/-- `p / "bin" / "static" / filename`. -/
def resourcePath (fmt : PathFormat) (p filename : String) : String :=
  pathAppend fmt (pathAppend fmt (pathAppend fmt p "bin") "static") filename

example : resourcePath .windows "C:" "D:/x" = "D:/x" := by decide +kernel

example : parentPath .windows (resourcePath .windows "C:/r" "a\\b") = "C:/r\\bin\\static\\a" := by
  decide +kernel

end ResourceServer
