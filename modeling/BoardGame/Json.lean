/-! # JSON values

Written with every element on a line of its own, two spaces further in than what holds it. -/

namespace BoardGame

inductive JsonValue where
  | null
  | int (value : Int)
  | text (value : String)
  | list (items : List JsonValue)
  /-- The members are written in the order of the list. -/
  | object (members : List (String × JsonValue))
deriving Inhabited

namespace JsonValue

/-- How a character stands in a quoted text. -/
def escape (c : Char) : List Char :=
  match c with
  | '"' => ['\\', '"']
  | '\\' => ['\\', '\\']
  | '\n' => ['\\', 'n']
  | '\r' => ['\\', 'r']
  | '\t' => ['\\', 't']
  | '\x08' => ['\\', 'b']
  | '\x0c' => ['\\', 'f']
  | c =>
    if c.toNat < 0x20 then
      ['\\', 'u', '0', '0', Nat.digitChar (c.toNat / 16), Nat.digitChar (c.toNat % 16)]
    else [c]

def quote (s : String) : String := "\"" ++ String.ofList (s.toList.flatMap escape) ++ "\""

/-- A line feed and the indentation of the given depth. -/
def newline (depth : Nat) : String := String.ofList ('\n' :: List.replicate (2 * depth) ' ')

/-- Writes items between brackets, each on its own line inside `depth`. -/
def block (left right : String) (depth : Nat) (items : List String) : String :=
  if items.isEmpty then left ++ right
  else
    left ++ ",".intercalate (items.map (newline (depth + 1) ++ ·)) ++ newline depth ++ right

mutual

/-- Writes a value that stands at the given depth. -/
def renderAt (depth : Nat) : JsonValue → String
  | null => "null"
  | int n => toString n
  | text s => quote s
  | list items => block "[" "]" depth (renderItems (depth + 1) items)
  | object members => block "\x7b" "\x7d" depth (renderMembers (depth + 1) members)

def renderItems (depth : Nat) : List JsonValue → List String
  | [] => []
  | v :: vs => renderAt depth v :: renderItems depth vs

def renderMembers (depth : Nat) : List (String × JsonValue) → List String
  | [] => []
  | (key, v) :: members => (quote key ++ ": " ++ renderAt depth v) :: renderMembers depth members

end

def render (v : JsonValue) : String := renderAt 0 v

end JsonValue
end BoardGame
