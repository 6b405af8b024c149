import Atmark.Code.Name
import Atmark.Directive.Builtin
import Atmark.Site.Yaml

/-!
The configuration of a site. A configuration file sets some of the fields; the others keep their
defaults. A field that is named but given no value keeps its default too, unless it is a list.
-/
namespace Atmark

/-- How the templates of a site are compiled. -/
structure Config where
  environment : Text := utf8 "Production"
  voidTags : List Text := defaultVoidTags
  rawTextTags : List Text := defaultRawTextTags
  buffer : Text := utf8 "html"
  package : Text := utf8 "views"
  /-- The extension of the templates. -/
  extension : Text := utf8 ".rhtml"
  coalesce : Bool := true
  /-- The imports of generated files are completed and pruned. -/
  fixImports : Bool := false
  deriving DecidableEq, Repr

/-- What is wrong with a configuration. -/
inductive ConfigFault where
  | unreadable
  | buffer (name : Text)
  | package (name : Text)
  | extension (ext : Text)
  | tagName (name : Text)
  deriving DecidableEq, Repr

/-- The wording of a fault. -/
def ConfigFault.message (f : ConfigFault) : Text :=
  utf8 "rusthtml: invalid configuration: " ++ match f with
    | .unreadable => utf8 "not a mapping of known fields"
    | .buffer n => utf8 "buffer " ++ Text.quote n ++ utf8 " is not a Go identifier"
    | .package n => utf8 "package " ++ Text.quote n ++ utf8 " is not a valid package name"
    | .extension e => utf8 "extension " ++ Text.quote e ++ utf8 " must start with a dot"
    | .tagName n => utf8 "invalid tag name " ++ Text.quote n

namespace Config

/-- The name of the configuration file of a site. -/
def fileName : Text := utf8 "rusthtml.yaml"

/-- The text to which a value sets a field that has a text now. -/
def textValue? (now : Text) : Yaml.Value → Option Text
  | .scalar s => some (if s.isNull then now else s.text)
  | .list _ => none

/-- The truth value to which a value sets a field that has one now. -/
def flagValue? (now : Bool) : Yaml.Value → Option Bool
  | .scalar s => if s.isNull then some now else s.bool?
  | .list _ => none

/-- The texts to which a value sets a list; items without a value are left out. -/
def listValue? : Yaml.Value → Option (List Text)
  | .scalar s => if s.isNull then some [] else none
  | .list items => some ((items.filter (!·.isNull)).map (·.text))

/-- The configuration with one field set, if the field exists and takes such a value. -/
def set? (c : Config) (field : Text) (v : Yaml.Value) : Option Config :=
  if field = utf8 "environment" then
    (textValue? c.environment v).map fun t => { c with environment := t }
  else if field = utf8 "void_tags" then (listValue? v).map fun ts => { c with voidTags := ts }
  else if field = utf8 "raw_text_tags" then (listValue? v).map fun ts => { c with rawTextTags := ts }
  else if field = utf8 "buffer" then (textValue? c.buffer v).map fun t => { c with buffer := t }
  else if field = utf8 "package" then (textValue? c.package v).map fun t => { c with package := t }
  else if field = utf8 "extension" then
    (textValue? c.extension v).map fun t => { c with extension := t }
  else if field = utf8 "coalesce" then
    (flagValue? c.coalesce v).map fun b => { c with coalesce := b }
  else if field = utf8 "fix_imports" then
    (flagValue? c.fixImports v).map fun b => { c with fixImports := b }
  else none

/-- The configuration with the fields of a document set, each at most once. -/
def setAll? (c : Config) (seen : List Text) : List (Yaml.Scalar × Yaml.Value) → Option Config
  | [] => some c
  | (key, v) :: es =>
    if key.isNull then setAll? c seen es
    else if seen.contains key.text then none
    else (c.set? key.text v).bind fun c => setAll? c (key.text :: seen) es

/-- The extension starts with a dot, names something and holds no separator of paths. -/
def isExtension (ext : Text) : Bool :=
  2 ≤ ext.length && ext.head? = some 0x2E && !ext.contains 0x2F && !ext.contains 0x5C

/-- The text can be the name of a tag. -/
def isTagName (name : Text) : Bool := !name.isEmpty && !name.any (utf8 " \t\r\n<>/").contains

/-- The first fault of a configuration, field by field. -/
def fault? (c : Config) : Option ConfigFault :=
  if !Code.isName c.buffer then some (.buffer c.buffer)
  else if !Code.isName c.package || c.package = utf8 "_" then some (.package c.package)
  else if !isExtension c.extension then some (.extension c.extension)
  else ((c.voidTags ++ c.rawTextTags).find? (!isTagName ·)).map .tagName

/-- The configuration that a file describes. -/
def parse (src : Text) : Except ConfigFault Config :=
  match (Yaml.parse? src).bind (setAll? {} []) with
  | none => .error .unreadable
  | some c => match c.fault? with
    | some f => .error f
    | none => .ok c

/-- The registry of the language with the tag names of a configuration. -/
def registry (c : Config) : Registry :=
  (Registry.standard.setVoidTags c.voidTags).setRawTextTags c.rawTextTags

end Config
end Atmark
