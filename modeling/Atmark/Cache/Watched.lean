import Atmark.Cache
import Atmark.Files

/-!
A cache that forgets the fragments of a file when the file changes. A fragment is kept only if there is
something to watch at its path. The first error stays until it is taken; later ones are dropped.
-/
namespace Atmark

/-- A cache of the contents of a directory. -/
structure WatchedCache where
  files : Files
  /-- The paths that are watched. -/
  watched : List Text := []
  cache : Cache := {}
  /-- The error that nobody has taken yet. -/
  trouble : Option FileTrouble := none

namespace WatchedCache

/-- Why a path, taken below the directory, cannot be watched. -/
def refusal? (fs : Files) (path : Text) : Option FileTrouble :=
  if path.contains 0 then some .invalid
  else
    let below := (Path.clean (Path.slash :: path)).tail
    if below.isEmpty || (fs.get? below).isSome || fs.isDirectory below then none
    else some (if fs.throughFile below then .notDirectory else .noEntry)

/-- The fragment under a key. -/
def get? (w : WatchedCache) (key : Text) : Option Fragment := w.cache.get? key

/-- Starts to watch a path, unless it is watched already. -/
def watch (w : WatchedCache) (path : Text) : Except FileTrouble WatchedCache :=
  if w.watched.contains path then .ok w
  else match refusal? w.files path with
    | some t => .error t
    | none => .ok { w with watched := path :: w.watched }

/-- Keeps a fragment. -/
def store (w : WatchedCache) (key : Text) (f : Fragment) : WatchedCache :=
  { w with cache := w.cache.put key f }

/-- Keeps a fragment, if its path can be watched. -/
def put (w : WatchedCache) (key : Text) (f : Fragment) : WatchedCache :=
  match w.watch (Cache.splitKey key).2 with
  | .ok w => w.store key f
  | .error t => { w with trouble := some (w.trouble.getD t) }

/-- Stops to watch a path. -/
def unwatch (w : WatchedCache) (path : Text) : WatchedCache :=
  { w with watched := w.watched.filter (· ≠ path) }

/-- Forgets the fragments of a path. -/
def forget (w : WatchedCache) (path : Text) : WatchedCache :=
  { w with cache := w.cache.erase path }

/-- Stops to watch a changed path and forgets its fragments; also gives the path in cleaned form. -/
def evict (w : WatchedCache) (path : Text) : Text × WatchedCache :=
  let p := Path.clean (path.dropWhile (· = Path.slash))
  (p, (w.unwatch p).forget p)

/-- Takes the error. -/
def takeTrouble (w : WatchedCache) : Option FileTrouble × WatchedCache :=
  (w.trouble, { w with trouble := none })

end WatchedCache
end Atmark
