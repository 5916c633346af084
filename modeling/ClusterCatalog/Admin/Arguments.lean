import ClusterCatalog.Catalog.Settings
import ClusterCatalog.Store.Item

/-!
# Arguments of the command line

```text
[options] ls PATH | get PATH | versions PATH | active PATH | activate PATH REVISION
          | databases | units DATABASE
```

The options stand before the command, each at most once, with the value as the next argument or
after a `=`. A value that starts with `-` is taken for an option, unless it is `-` alone or stands
after `=`; an operand may start with `-` only after `--`.
-/

namespace ClusterCatalog

/-- **What the tool is asked to do.** -/
inductive Command where
  | ls (path : Path)
  | get (path : Path)
  | versions (path : Path)
  | active (path : Path)
  | activate (path : Path) (revision : Nat)
  | databases
  | units (db : String)
deriving DecidableEq, Inhabited

/-- The options of the tool, which override the settings. -/
structure Options where
  /-- The file of the settings. -/
  config : Option String := none
  backend : Option Backend := none
  /-- The file of the repository. -/
  store : Option String := none
  logLevel : Option String := none
deriving DecidableEq, Inhabited

/-- **The arguments of the tool**: its options and the command. -/
structure Arguments extends Options where
  command : Command
deriving DecidableEq, Inhabited

/-- An option of the command line. -/
inductive OptionName where
  | config
  | backend
  | store
  | logLevel
deriving DecidableEq, Inhabited

namespace Arguments

/-- The file of the settings if none is given. -/
def defaultConfig : String := "/etc/shardmeta/shardmeta.toml"

/-- Whether an argument can be a value by itself. -/
def isPlain (argument : String) : Bool := argument == "-" || argument.toList.head? != some '-'

/-! ### Operands -/

/-- The number of a revision as an operand; a zero may be negative. -/
def revision? (text : String) : Option Nat :=
  match text.toList with
  | '-' :: digits => if digits ≠ [] ∧ digits.all (· == '0') then some 0 else none
  | _ => revisionOf? text

/-- The operands of a command, none of which is an option. -/
def operands? : List String → Option (List String)
  | [] => some []
  | argument :: rest =>
    if argument = "--" then some rest
    else if isPlain argument then (argument :: ·) <$> operands? rest
    else none

/-- The command of a name with its operands. -/
def command? : List String → Option Command
  | ["ls", path] => some (.ls path)
  | ["get", path] => some (.get path)
  | ["versions", path] => some (.versions path)
  | ["active", path] => some (.active path)
  | ["activate", path, revision] => .activate path <$> revision? revision
  | ["databases"] => some .databases
  | ["units", db] => some (.units db)
  | _ => none

/-! ### Options -/

/-- The option that an argument names, with what follows the name. -/
def option? (argument : String) : Option (OptionName × String) :=
  let found := [("--config", .config), ("--backend", .backend), ("--store", .store),
      ("--log-level", .logLevel)].filter fun (o : String × OptionName) =>
    argument = o.1 ∨ Path.startsWith argument (o.1 ++ "=")
  match found with
  | o :: _ => some (o.2, String.ofList (argument.toList.drop o.1.length))
  | [] =>
    if Path.startsWith argument "-c" then
      some (.config, String.ofList (argument.toList.drop 2))
    else none

/-- The value that follows the name of an option in the same argument. -/
def attached? (rest : String) : Option String :=
  match rest.toList with
  | [] => none
  | '=' :: value => some (String.ofList value)
  | value => some (String.ofList value)

/-- The options with the value of one more, unless that one already has a value. -/
def withOption? (o : Options) (option : OptionName) (value : String) : Option Options :=
  match option with
  | .config => if o.config.isNone then some { o with config := some value } else none
  | .backend => do
    let backend ← Backend.ofName? value
    if o.backend.isNone then some { o with backend := some backend } else none
  | .store => if o.store.isNone then some { o with store := some value } else none
  | .logLevel => if o.logLevel.isNone then some { o with logLevel := some value } else none

/-- Reads options up to the command, then the command. -/
def readFrom (o : Options) : List String → Option Arguments
  | [] => none
  | argument :: rest =>
    match option? argument with
    | some (option, text) =>
      match attached? text with
      | some value => do readFrom (← withOption? o option value) rest
      | none =>
        match rest with
        | value :: later =>
          if isPlain value then do readFrom (← withOption? o option value) later else none
        | [] => none
    | none => do
      let operands ← operands? rest
      return { toOptions := o, command := ← command? (argument :: operands) }

/-- **Reads the arguments**; none if they are not understood. -/
def read (arguments : List String) : Option Arguments :=
  readFrom {} arguments

end Arguments

end ClusterCatalog
