import Reactor.Decimal.Text
import Reactor.Digest
import Reactor.Entries

/-!
# JSON trees

* `Json` : a tree. An object is a finite map, kept in the order of its keys.
* `Json.insertKey` : puts a member where its key belongs.
* `Json.render` : the written form, without blanks.
* `Json.quote` : the written form of a text.
-/

namespace Reactor

/-- A JSON tree. Whole numbers of 64 bits are told apart from other numbers. -/
inductive Json where
  | null
  | boolean (b : Bool)
  | integer (n : Int64)
  | decimal (x : Decimal)
  | string (s : String)
  | array (items : List Json)
  | object (members : List (String × Json))
  deriving Inhabited

namespace Json

/-- Puts a member where its key belongs, replacing one of the same key. -/
def insertKey {α : Type} : List (String × α) → String → α → List (String × α)
  | [], key, value => [(key, value)]
  | (k, a) :: rest, key, value =>
    if key = k then (key, value) :: rest
    else if key < k then (key, value) :: (k, a) :: rest
    else (k, a) :: insertKey rest key value

/-- The object with the given members; of several with one key the last counts. -/
def ofMembers (members : List (String × Json)) : Json :=
  .object (members.foldl (fun done (key, value) => insertKey done key value) [])

/-- The characters that stand for one character inside quotes. -/
def escape (c : Char) : List Char :=
  if c == '"' then ['\\', '"']
  else if c == '\\' then ['\\', '\\']
  else if c == '\n' then ['\\', 'n']
  else if c == '\r' then ['\\', 'r']
  else if c == '\t' then ['\\', 't']
  else if c.toNat == 8 then ['\\', 'b']
  else if c.toNat == 12 then ['\\', 'f']
  else if c.toNat < 32 then
    ['\\', 'u', '0', '0', Digest.hexDigit (c.toNat / 16), Digest.hexDigit (c.toNat % 16)]
  else [c]

/-- The written form of a text. -/
def quote (s : String) : String :=
  String.ofList ('"' :: s.toList.flatMap escape ++ ['"'])

mutual

/-- The written form, without blanks. -/
def render : Json → String
  | null => "null"
  | boolean b => if b then "true" else "false"
  | integer n => toString n.toInt
  | decimal x => Decimal.json x
  | string s => quote s
  | array items => "[" ++ String.intercalate "," (renderItems items) ++ "]"
  | object members =>
    String.singleton '\x7b' ++ String.intercalate "," (renderMembers members) ++
      String.singleton '\x7d'

/-- The written forms of the items of an array. -/
def renderItems : List Json → List String
  | [] => []
  | item :: items => render item :: renderItems items

/-- The written forms of the members of an object. -/
def renderMembers : List (String × Json) → List String
  | [] => []
  | (key, value) :: members => (quote key ++ ":" ++ render value) :: renderMembers members

end

end Json

end Reactor
