import Atmark.Parse.Registry

/-!
Contents of other files. A name is looked up beside the file that mentions it and then one directory
higher; the first path that can be read wins.
-/
namespace Atmark.Content

/-- The content that a name means in the file `file`, and its path; also the first refusal, if the
fallback had to be tried. -/
def read (files : Option Files) (file name : Text) (pos : Option Position) :
    Except Error (Text × Text) × Option (Text × Text × FileError) :=
  if !Path.isValidName name then (.error (.at? pos (.invalidPath name)), none)
  else match Path.resolve? file name with
    | none => (.error (.at? pos (.outsideRoot name)), none)
    | some (resolved, fallback) =>
      let failed (c : ReadFailure) : Except Error (Text × Text) :=
        .error (.content [] (pos.getD .zero) resolved fallback c)
      match files with
      | none => (failed .noFiles, none)
      | some fs =>
        match fs.read resolved with
        | .ok data => (.ok (data, resolved), none)
        | .error e =>
          if fallback = resolved then (failed (.refused [e]), none)
          else match fs.read fallback with
            | .ok data => (.ok (data, fallback), some (resolved, fallback, e))
            | .error e' => (failed (.refused [e, e']), some (resolved, fallback, e))

/-- The fields of the debug record about a fallback. -/
def fallbackFields : Text × Text × FileError → List (String × Text)
  | (resolved, fallback, e) => [("file", resolved), ("fallback", fallback), ("error", e.message)]

/-- Renders Markdown, with the fault at a position if that fails. -/
def renderMarkdown (settings : Settings) (src : Text) (pos : Option Position) : Except Error Text :=
  match settings.markdown src with
  | .ok html => .ok html
  | .error reason => .error (.at? pos (.markdown reason))

end Atmark.Content
