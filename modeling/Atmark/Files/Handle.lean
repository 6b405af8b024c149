import Atmark.Files

/-!
Opened files. A handle reads its data piece by piece and lists a directory piece by piece; after it is
closed, nothing can be read.
-/
namespace Atmark.Files

/-- An opened file or directory. -/
structure Handle where
  path : Text
  opened : Opened
  /-- How much is read, unless the handle is closed. -/
  offset : Option Nat := some 0
  /-- How many entries are listed in pieces. -/
  listed : Nat := 0

namespace Handle

/-- The outcome of reading a piece. -/
inductive Piece (α : Type) where
  | part (a : α)
  | atEnd
  | refused (e : FileError)

/-- The data to be read; a directory has none. -/
def data (h : Handle) : Text :=
  match h.opened with
  | .file d => d
  | .directory => []

/-- The handle is that of a directory. -/
def isDirectory (h : Handle) : Bool := h.opened = .directory

/-- What is known about the file. -/
def entry (h : Handle) : Entry := ⟨Path.base h.path, h.isDirectory, h.data.length⟩

/-- Reads at most `n` bytes. -/
def read (h : Handle) (n : Nat) : Piece Text × Handle :=
  match h.offset with
  | none => (.refused ⟨"read", h.path, .invalid⟩, h)
  | some k =>
    if k = h.data.length then (.atEnd, h)
    else
      let part := (h.data.drop k).take n
      (.part part, { h with offset := some (k + part.length) })

/-- Closes the handle. -/
def close (h : Handle) : Handle := { h with offset := none }

/-- Lists the next `n` entries of a directory, or all its entries if no number is given. -/
def list (fs : Files) (h : Handle) : Option Nat → Piece (List Entry) × Handle
  | none => (.part (fs.list h.path), h)
  | some n =>
    match (fs.list h.path).drop h.listed with
    | [] => (.atEnd, h)
    | es => (.part (es.take n), { h with listed := h.listed + (es.take n).length })

end Handle

/-- Opens a path. -/
def handle (fs : Files) (path : Text) : Except FileError Handle :=
  (fs.open? path).map fun o => { path, opened := o }

end Atmark.Files
