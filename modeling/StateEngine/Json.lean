/-!
# JSON values and their text

A JSON value stands as it is written: fields in order, repeated ones kept, and numbers by their
literal, so that `1`, `1.0` and `-0` stay apart. `Json.render` is the compact text of a value.
-/

namespace StateEngine

/-- A JSON value. A string or a field name is `none` when its escapes name half of a surrogate pair,
which no text contains: such a string can be passed over but not read. -/
inductive Json where
  | null
  | bool (b : Bool)
  | number (literal : String)
  | string (content : Option String)
  | array (items : List Json)
  | object (fields : List (Option String × Json))

namespace Json

def text (s : String) : Json := .string (some s)

def ofNat (n : Nat) : Json := .number (toString n)

def ofInt (n : Int) : Json := .number (toString n)

def ofFields (fields : List (String × Json)) : Json :=
  .object (fields.map fun f => (some f.1, f.2))

def hexDigit (n : Nat) : Char := if n < 10 then Char.ofNat (48 + n) else Char.ofNat (87 + n)

/-- One character of a string. Only quotes, backslashes and the characters below the space need an
escape. -/
def escapedChar (c : Char) : List Char :=
  if c = '"' then ['\\', '"']
  else if c = '\\' then ['\\', '\\']
  else if 0x20 ≤ c.toNat then [c]
  else if c = '\x08' then ['\\', 'b']
  else if c = '\t' then ['\\', 't']
  else if c = '\n' then ['\\', 'n']
  else if c = '\x0c' then ['\\', 'f']
  else if c = '\r' then ['\\', 'r']
  else ['\\', 'u', '0', '0', hexDigit (c.toNat / 16), hexDigit (c.toNat % 16)]

/-- A string between quotes. The `none` of `Json` is written as the first lone half. -/
def renderString : Option String → List Char
  | some s => '"' :: (s.toList.flatMap escapedChar ++ ['"'])
  | none => "\"\\ud800\"".toList

mutual
def render : Json → List Char
  | .null => "null".toList
  | .bool true => "true".toList
  | .bool false => "false".toList
  | .number literal => literal.toList
  | .string content => renderString content
  | .array items => '[' :: renderItems items
  | .object fields => '\x7b' :: renderFields fields

def renderItems : List Json → List Char
  | [] => [']']
  | [item] => render item ++ [']']
  | item :: next :: rest => render item ++ ',' :: renderItems (next :: rest)

def renderFields : List (Option String × Json) → List Char
  | [] => ['\x7d']
  | [(name, value)] => renderString name ++ ':' :: render value ++ ['\x7d']
  | (name, value) :: next :: rest =>
    renderString name ++ ':' :: render value ++ ',' :: renderFields (next :: rest)
end

def renderText (j : Json) : String := String.ofList j.render

/-- The last value given to a field. -/
def field? (name : String) : Json → Option Json
  | .object fields => (fields.reverse.find? fun f => f.1 = some name).map Prod.snd
  | _ => none

/-- The fields of an object with repeated ones dropped, the last of them counting. -/
def lastFields : List (Option String × Json) → List (Option String × Json)
  | [] => []
  | f :: rest =>
    if rest.any fun g => g.1 = f.1 then lastFields rest else f :: lastFields rest

def collapse : Json → Json
  | .object fields => .object (lastFields fields)
  | j => j

end Json

end StateEngine
