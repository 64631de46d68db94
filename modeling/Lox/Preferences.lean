import Lox.Preferences.Entry
import Lox.Text.Quoted
import Lox.Text.Utf8

/-!
# Preferences

What a user can set in a preference file. A file changes the defaults entry by entry; everything
that is wrong with its entries is reported at once.
-/

namespace Lox

structure Preferences where
  prompt : String := "> "
  historyFile : String := ""
  /-- Whether lines are coloured while they are typed. -/
  highlight : Bool := true
  /-- The colours of source lines under errors. -/
  style : String := "monokai"
deriving DecidableEq, Repr

namespace Preferences

/-! ## What can be wrong -/

/-- What can be wrong with an entry. -/
inductive Issue where
  | unknownField (line : Nat) (key : String)
  | notBool (line : Nat) (tag : Tag) (text : String)
  | duplicateKey (line : Nat) (key : String) (first : Nat)
deriving DecidableEq, Repr

/-- A value as it is quoted in an issue. Of a value of more than ten bytes only seven are shown. -/
def excerpt (text : String) : String :=
  let bytes := text.toUTF8
  if 10 < bytes.size then Text.decodeUtf8 (bytes.extract 0 7) ++ "..." else text

def Issue.message : Issue → String
  | unknownField line key =>
    "line " ++ toString line ++ ": field " ++ key ++ " not found in type main.config"
  | notBool line tag text =>
    "line " ++ toString line ++ ": cannot unmarshal " ++ tag.name ++ " `" ++ excerpt text ++
      "` into bool"
  | duplicateKey line key first =>
    "line " ++ toString line ++ ": mapping key " ++ Text.quote key ++ " already defined at line " ++
      toString first

/-- Why a file is refused. -/
inductive Error where
  /-- The file holds a character that no text has. -/
  | controlCharacter
  /-- The key `<<` asks for the entries of its value, which has none. -/
  | mergeOfScalar
  | issues (all : List Issue)
deriving DecidableEq, Repr

def Error.message : Error → String
  | controlCharacter => "config: parse: yaml: control characters are not allowed"
  | mergeOfScalar => "config: parse: yaml: map merge requires map or sequence of maps as the value"
  | issues all =>
    "config: parse: yaml: unmarshal errors:" ++
      String.join (all.map fun issue => "\n  " ++ issue.message)

/-! ## Entries -/

/-- The characters of a text: no control characters but tabs and line breaks. -/
def isTextChar (c : Char) : Bool :=
  let n := c.toNat
  n = 0x09 || n = 0x0A || n = 0x0D || (0x20 ≤ n && n ≤ 0x7E) || n = 0x85 ||
    (0xA0 ≤ n && n ≤ 0xFFFD) || 0x10000 ≤ n

/-- The pairs of entries that have the same key. -/
def duplicates : List Entry → List Issue
  | [] => []
  | e :: es =>
    (es.filter (·.key.text = e.key.text)).map
      (fun d => .duplicateKey d.line d.key.text e.line) ++ duplicates es

/-- The value as a switch. Besides the types there are a few words for on and off. -/
def switch? (value : Scalar) : Option Bool :=
  match value.tag with
  | .bool b => some b
  | .str =>
    if ["y", "Y", "yes", "Yes", "YES", "on", "On", "ON"].contains value.text then some true
    else if ["n", "N", "no", "No", "NO", "off", "Off", "OFF"].contains value.text then some false
    else none
  | _ => none

/-- What is wrong with an entry. An entry without a key is passed over. -/
def issue? (e : Entry) : Option Issue :=
  if e.key.tag = .null || ["prompt", "history_file", "style"].contains e.key.text then none
  else if e.key.text = "highlight" then
    if e.value.tag = .null || (switch? e.value).isSome then none
    else some (.notBool e.line e.value.tag e.value.text)
  else some (.unknownField e.line e.key.text)

/-- The preferences after an entry. An empty value changes nothing. -/
def apply (p : Preferences) (e : Entry) : Preferences :=
  if e.value.tag = .null then p
  else if e.key.text = "prompt" then { p with prompt := e.value.text }
  else if e.key.text = "history_file" then { p with historyFile := e.value.text }
  else if e.key.text = "style" then { p with style := e.value.text }
  else if e.key.text = "highlight" then { p with highlight := (switch? e.value).getD p.highlight }
  else p

/-- Reads a preference file over the defaults. If a key is set twice, nothing else is looked at. -/
def parse (source : String) : Except Error Preferences :=
  let es := entries source
  if !source.toList.all isTextChar then .error .controlCharacter
  else if !(duplicates es).isEmpty then .error (.issues (duplicates es))
  else if es.any (·.key.tag = .merge) then .error .mergeOfScalar
  else
    match es.filterMap issue? with
    | [] => .ok (es.foldl apply {})
    | issues => .error (.issues issues)

end Preferences

end Lox
