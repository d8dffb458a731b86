import ToddCoxeter.Decimal
import ToddCoxeter.Text.Quoted

/-! # Loose data

Generators, letters and the other side of a comparison may be handed over as data of any kind.
`Datum` is such a value.  This module says when a datum counts as true (`Datum.isTruthy`), which
texts and truth values it equals (`Datum.equalsText`, `Datum.equalsBool`), into which entries it can
be taken apart (`Datum.entries?`) and how messages show it (`Datum.quoted`). -/

namespace ToddCoxeter

/-- A value of any kind. -/
inductive Datum where
  /-- The absent value. -/
  | null
  /-- A truth value. -/
  | bool (b : Bool)
  /-- An integer. -/
  | integer (n : Int)
  /-- A decimal number. -/
  | decimal (d : Decimal)
  /-- A text. -/
  | text (s : String)
  /-- A list of values. -/
  | list (items : List Datum)
  /-- A record of named values. -/
  | record (members : List (String × Datum))
deriving Repr, Inhabited

namespace Datum

/-- All values are true but the absent value, zero and what is empty. -/
def isTruthy : Datum → Bool
  | null => false
  | bool b => b
  | integer n => n != 0
  | decimal d => !d.isZero
  | text s => s != ""
  | list items => !items.isEmpty
  | record members => !members.isEmpty

/-- Is the datum this very text? -/
def equalsText (d : Datum) (s : String) : Bool :=
  match d with
  | text t => t == s
  | _ => false

/-- Is the datum this truth value, where one stands for true and zero for false? -/
def equalsBool (d : Datum) (b : Bool) : Bool :=
  match d with
  | bool c => c == b
  | integer n => n == b.toInt
  | decimal d => d.equalsNat b.toNat
  | _ => false

/-- The entries of a datum: the items of a list, the characters of a text, the names in a record. -/
def entries? : Datum → Option (List Datum)
  | list items => some items
  | text s => some (s.toList.map fun c => text (String.singleton c))
  | record members => some (members.map fun m => text m.1)
  | _ => none

/-- The word that messages use for the kind of the datum. -/
def kind : Datum → String
  | null => "NoneType"
  | bool _ => "bool"
  | integer _ => "int"
  | decimal _ => "float"
  | text _ => "str"
  | list _ => "list"
  | record _ => "dict"

mutual

/-- The datum as messages show it. -/
def quoted : Datum → String
  | null => "None"
  | bool b => if b then "True" else "False"
  | integer n => toString n
  | decimal d => d.render
  | text s => Text.quoted s
  | list items => "[" ++ ", ".intercalate (quotedItems items) ++ "]"
  | record members => "\x7b" ++ ", ".intercalate (quotedMembers members) ++ "\x7d"

/-- The items of a list as messages show them. -/
def quotedItems : List Datum → List String
  | [] => []
  | d :: ds => d.quoted :: quotedItems ds

/-- The members of a record as messages show them. -/
def quotedMembers : List (String × Datum) → List String
  | [] => []
  | (name, d) :: ms => (Text.quoted name ++ ": " ++ d.quoted) :: quotedMembers ms

end

end Datum

end ToddCoxeter
