import Atmark.Text.Basic
import Atmark.Text.Quoted

/-!
Flags of a command line. A flag is a name after one or two dashes. One that is true or false may have a
value after `=`; any other takes its value from there or from the next argument. The flags end at the
first argument that is none, or after `--`.
-/
namespace Atmark.Command

/-- What is wrong with the flags of a command line. -/
inductive FlagFault where
  | help
  | malformed (arg : Text)
  | unknown (name : Text)
  | notBool (value name : Text)
  | noValue (name : Text)
  deriving DecidableEq, Repr

/-- The line that tells a fault; to ask for help is none. -/
def FlagFault.message : FlagFault → Text
  | .help => []
  | .malformed arg => utf8 "bad flag syntax: " ++ arg ++ utf8 "\n"
  | .unknown name => utf8 "flag provided but not defined: -" ++ name ++ utf8 "\n"
  | .notBool value name =>
    utf8 "invalid boolean value " ++ Text.quote value ++ utf8 " for -" ++ name ++
      utf8 ": parse error\n"
  | .noValue name => utf8 "flag needs an argument: -" ++ name ++ utf8 "\n"

/-- A flag that a command knows. -/
structure Flag where
  name : Text
  /-- It is true or false. -/
  isBool : Bool

/-- The truth value that a text means. -/
def boolValue? (t : Text) : Option Bool :=
  if (["1", "t", "T", "true", "TRUE", "True"].map utf8).contains t then some true
  else if (["0", "f", "F", "false", "FALSE", "False"].map utf8).contains t then some false
  else none

/-- The name and the value of a flag without its dashes; the name is not empty. -/
def nameAndValue (t : Text) : Text × Option Text :=
  match Text.cut? 0x3D t with
  | some (name, value) => (name, some value)
  | none => (t, none)

/-- An argument that is a flag, without its dashes. -/
def flagText? : Text → Option Text
  | 0x2D :: 0x2D :: r => some r
  | 0x2D :: b :: r => some (b :: r)
  | _ => none

/-- The flags that are set, in order, and the other arguments. -/
def parseFlags (known : List Flag) :
    List Text → Except FlagFault (List (Text × Text) × List Text)
  | [] => .ok ([], [])
  | arg :: args =>
    match flagText? arg with
    | none => .ok ([], arg :: args)
    | some [] => .ok ([], args)
    | some (b :: r) =>
      if b = 0x2D || b = 0x3D then .error (.malformed arg)
      else
        let (name, value?) := nameAndValue (b :: r)
        match known.find? (·.name = name) with
        | none =>
          if name = utf8 "help" || name = utf8 "h" then .error .help else .error (.unknown name)
        | some flag =>
          let put (value : Text) (rest : Except FlagFault (List (Text × Text) × List Text)) :=
            rest.map fun (set, more) => ((name, value) :: set, more)
          if flag.isBool then
            let value := value?.getD (utf8 "true")
            if (boolValue? value).isNone then .error (.notBool value name)
            else put value (parseFlags known args)
          else match value?, args with
            | some value, args => put value (parseFlags known args)
            | none, value :: args => put value (parseFlags known args)
            | none, [] => .error (.noValue name)

/-- The value of a flag that was set last. -/
def flagValue? (set : List (Text × Text)) (name : String) : Option Text :=
  (set.reverse.lookup (utf8 name))

end Atmark.Command
