import Atmark.Text.Basic

/-!
What the command line tells about itself.
-/
namespace Atmark.Command

/-- Lines of text. -/
def textOf (lines : List String) : Text := lines.flatMap fun l => utf8 l ++ utf8 "\n"

/-- What the program does, and its commands. -/
def mainUsage : Text := textOf
  ["rusthtml is a tool for compiling RustHtml templates into Go files",
    "",
    "Usage:",
    "",
    "\t   rusthtml <command> [arguments]",
    "",
    "The commands are:",
    "",
    "\t   generate    compile the templates of a directory",
    "\t   watch       compile the templates when they change",
    "\t   version     print rusthtml version",
    "",
    "Use \"rusthtml help <command>\" for more information about a command."]

/-- How templates are compiled once. -/
def generateUsage : Text := textOf
  ["usage: rusthtml generate [-c config] [-check] [-v] [dir]",
    "",
    "Generate compiles the templates in the directory dir, or in the current",
    "directory, and writes a Go file next to each template, as \"index.rhtml.go\"",
    "for \"index.rhtml\". Files whose names start with \".\" or \"_\" are not compiled.",
    "",
    "The configuration is read from the file rusthtml.yaml in dir, if it exists.",
    "",
    "The -check flag type checks the package of the generated files.",
    "",
    "The -v flag prints the debug records of the compilation."]

/-- How templates are compiled whenever they change. -/
def watchUsage : Text := textOf
  ["usage: rusthtml watch [-c config] [-v] [dir]",
    "",
    "Watch compiles the templates as generate does, then compiles them again",
    "each time a file in the directory changes. Compilation errors are printed",
    "and watching continues."]

/-- How the version is asked for. -/
def versionUsage : Text := textOf ["usage: rusthtml version"]

/-- The text about a topic. -/
def usage? (topic : Text) : Option Text :=
  [(utf8 "rusthtml", mainUsage), (utf8 "generate", generateUsage), (utf8 "watch", watchUsage),
    (utf8 "version", versionUsage)].lookup topic

end Atmark.Command
