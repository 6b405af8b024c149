import Atmark.Path
import Atmark.Text.Case
import Atmark.Text.Quoted

/-!
Import paths of packages. Elements are plain ASCII names that every file system can hold, so dots at
their end and names reserved for devices are refused.
-/
namespace Atmark.ImportPath

/-- What is wrong with an import path. -/
inductive Trouble where
  | notText
  | isEmpty
  | leadingDash
  | doubleSlash
  | trailingSlash
  | emptyElement
  | onlyDots (element : Text)
  | trailingDot
  | invalidChar (c : Char)
  | reserved (name : Text)
  | shortName
  deriving DecidableEq, Repr

/-- The wording of a trouble. -/
def Trouble.message : Trouble → Text
  | .notText => utf8 "invalid UTF-8"
  | .isEmpty => utf8 "empty string"
  | .leadingDash => utf8 "leading dash"
  | .doubleSlash => utf8 "double slash"
  | .trailingSlash => utf8 "trailing slash"
  | .emptyElement => utf8 "empty path element"
  | .onlyDots e => utf8 "invalid path element " ++ Text.quote e
  | .trailingDot => utf8 "trailing dot in path element"
  | .invalidChar c => utf8 "invalid char " ++ Text.quoteChar c
  | .reserved n => Text.quote n ++ utf8 " disallowed as path element component on Windows"
  | .shortName => utf8 "trailing tilde and digits in path element"

/-- Names of devices, which no element may have before its first dot. -/
def reservedNames : List Text :=
  ["CON", "PRN", "AUX", "NUL", "COM1", "COM2", "COM3", "COM4", "COM5", "COM6", "COM7", "COM8", "COM9",
    "LPT1", "LPT2", "LPT3", "LPT4", "LPT5", "LPT6", "LPT7", "LPT8", "LPT9"].map utf8

/-- A character that an element may hold. -/
def isAllowed (c : Char) : Bool :=
  c.isAlphanum || c = '-' || c = '.' || c = '_' || c = '~' || c = '+'

/-- The element before its first dot ends with a tilde and digits. -/
def isShortName (stem : Text) : Bool :=
  let digits := (stem.reverse.takeWhile (· != 0x7E)).reverse
  stem.contains 0x7E && !digits.isEmpty && digits.all fun b => 0x30 ≤ b && b ≤ 0x39

/-- What is wrong with one element. -/
def elementTrouble (e : Text) : Option Trouble :=
  if e.isEmpty then some .emptyElement
  else if e.all (· == 0x2E) then some (.onlyDots e)
  else if e.getLast? == some 0x2E then some .trailingDot
  else match (Text.runes e).find? (!isAllowed ·) with
    | some c => some (.invalidChar c)
    | none =>
      let stem := e.takeWhile (· != 0x2E)
      if reservedNames.any (Text.sameFold · stem) then some (.reserved stem)
      else if isShortName stem then some .shortName
      else none

/-- The first thing that is wrong with an import path. -/
def trouble (p : Text) : Option Trouble :=
  if !Text.isValid p then some .notText
  else if p.isEmpty then some .isEmpty
  else if p.head? == some 0x2D then some .leadingDash
  else if Text.holds (utf8 "//") p then some .doubleSlash
  else if p.getLast? == some Path.slash then some .trailingSlash
  else (Path.elements p).findSome? elementTrouble

end Atmark.ImportPath
