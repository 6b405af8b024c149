import Atmark.Text.Basic

/-!
Versions of modules: `v`, three numbers with dots between them, perhaps a mark of a preliminary release
after a dash and a mark of the build after a plus sign. Numbers at the end may be left out, and then
they are zero.
-/
namespace Atmark.Command

/-- The parts of a version. -/
structure Version where
  /-- The numbers as they are written, at most three. -/
  numbers : List Text
  /-- The mark of a preliminary release, its dash included. -/
  preliminary : Text := []
  /-- The mark of the build, its plus sign included. -/
  build : Text := []
  deriving DecidableEq, Repr

namespace Version

/-- A decimal digit. -/
def isDigit (b : UInt8) : Bool := 0x30 ≤ b && b ≤ 0x39

/-- A number without zeros before it. -/
def isNumber (t : Text) : Bool := !t.isEmpty && t.all isDigit && (t.length = 1 || t.head? ≠ some 0x30)

/-- A character of a mark. -/
def isMarkByte (b : UInt8) : Bool :=
  isDigit b || (0x41 ≤ b && b ≤ 0x5A) || (0x61 ≤ b && b ≤ 0x7A) || b = 0x2D

/-- A word of a mark. -/
def isMarkWord (t : Text) : Bool := !t.isEmpty && t.all isMarkByte

/-- The words of a mark, which dots part, are such. -/
def isMark (isWord : Text → Bool) : Text → Bool
  | [] => true
  | _ :: r => (Text.splitOn 0x2E r).all isWord

/-- A word of the mark of a preliminary release: a number has no zeros before it. -/
def isPreliminaryWord (t : Text) : Bool := isMarkWord t && (!t.all isDigit || isNumber t)

/-- The parts are those of a version; marks follow only three numbers. -/
def isWhole (v : Version) : Bool :=
  v.numbers.all isNumber && isMark isPreliminaryWord v.preliminary && isMark isMarkWord v.build &&
    (v.numbers.length = 3 || (v.numbers.length < 3 && v.preliminary.isEmpty && v.build.isEmpty))

/-- The version that a text is. -/
def parse? (t : Text) : Option Version :=
  match t with
  | 0x76 :: r =>
    let isMarkStart (b : UInt8) : Bool := b = 0x2D || b = 0x2B
    let marks := r.dropWhile (!isMarkStart ·)
    let v : Version :=
      { numbers := Text.splitOn 0x2E (r.takeWhile (!isMarkStart ·))
        preliminary := if marks.head? = some 0x2D then marks.takeWhile (· ≠ 0x2B) else []
        build := marks.dropWhile (· ≠ 0x2B) }
    if v.isWhole then some v else none
  | _ => none

/-- The mark of a build that does not keep to the major version of its path. -/
def incompatible : Text := utf8 "+incompatible"

/-- The version with all numbers, without the mark of the build except the one that has a meaning. -/
def canonical (v : Version) : Text :=
  let numbers := v.numbers ++ List.replicate (3 - v.numbers.length) (utf8 "0")
  0x76 :: Text.intercalate [0x2E] numbers ++ v.preliminary ++
    if v.build = incompatible then v.build else []

/-- The major version. -/
def major (v : Version) : Text := 0x76 :: v.numbers.headD []

/-- The major version in the last element of the path of a module, if it ends with one. -/
def majorOfPath? (path : Text) : Option Text :=
  match (Text.splitOn 0x2F path).reverse with
  | (0x76 :: n) :: _ :: _ =>
    if isNumber n && n ≠ utf8 "0" && n ≠ utf8 "1" then some (0x76 :: n) else none
  | _ => none

/-- The major version that the path of a module calls for, if the version has another one. -/
def expectedMajor? (path : Text) (v : Version) : Option Text :=
  match majorOfPath? path with
  | some m => if v.major = m then none else some m
  | none =>
    if v.major = utf8 "v0" || v.major = utf8 "v1" || v.build = incompatible then none
    else some (utf8 "v0 or v1")

end Version
end Atmark.Command
