import SqlCompose.Value.Basic

/-! # Mappings

Entries stay in insertion order. Writing to a key that is there replaces its value in place; keys are
compared as values, where numbers of any kind compare by size and texts by their characters. An association
is a mapping whose keys are texts.
-/

namespace SqlCompose

namespace Text

/-- Writes one named value: in place if the name is there, else at the end. -/
def put {α : Type} (name : String) (a : α) : List (String × α) → List (String × α)
  | [] => [(name, a)]
  | (n, b) :: rest => if n == name then (name, a) :: rest else (n, b) :: put name a rest

def putAll {α : Type} (named more : List (String × α)) : List (String × α) :=
  more.foldl (fun acc e => put e.1 e.2 acc) named

end Text

namespace Value

def intIsFloat (n : Int) (x : Number.Binary64) : Bool := x.toInt? == some n

def sameRange (a b c x y z : Int) : Bool :=
  let n := rangeLength a b c
  n == rangeLength x y z && (n == 0 || (a == x && (n == 1 || c == z)))

def sameAtom : Value → Value → Bool
  | .null, .null => true
  | .bool a, .bool b => a == b
  | .bool a, .int n => n == a.toNat
  | .bool a, .float x => intIsFloat a.toNat x
  | .int n, .bool a => n == a.toNat
  | .int m, .int n => m == n
  | .int n, .float x => intIsFloat n x
  | .float x, .bool a => intIsFloat a.toNat x
  | .float x, .int n => intIsFloat n x
  | .float x, .float y => x.same y
  | .bytes a, .bytes b => a == b
  | .range a b c, .range x y z => sameRange a b c x y z
  | .stream a, .stream b => a == b
  | a, b =>
    match a.text?, b.text? with
    | some s, some t => s == t
    | _, _ => false

mutual
def same : Value → Value → Bool
  | .tuple xs, v =>
    match v with
    | .tuple ys => sameAll xs ys
    | _ => false
  | .set xs, v =>
    match v with
    | .set ys => sameAll xs ys
    | _ => false
  | a, b => sameAtom a b

def sameAll : List Value → List Value → Bool
  | [], ys => ys.isEmpty
  | x :: xs, ys =>
    match ys with
    | [] => false
    | y :: ys => same x y && sameAll xs ys
end

mutual
/-- Whether a value can be a key: all its parts are immutable data. -/
def isKey : Value → Bool
  | .null | .bool _ | .int _ | .float _ | .text _ | .bytes _ | .operator _ | .direction _ => true
  | .range .. | .stream _ => true
  | .tuple items | .set items => areKeys items
  | _ => false

def areKeys : List Value → Bool
  | [] => true
  | v :: vs => isKey v && areKeys vs
end

end Value

namespace Entries

/-- Writes one entry: in place if the key is there, else at the end. -/
def put (key value : Value) : Entries → Entries
  | [] => [(key, value)]
  | (k, v) :: rest => if k.same key then (k, value) :: rest else (k, v) :: put key value rest

def get? (key : Value) (entries : Entries) : Option Value :=
  (entries.find? (fun e => e.1.same key)).map (·.2)

def merge (entries more : Entries) : Entries := more.foldl (fun acc e => put e.1 e.2 acc) entries

/-- The mapping with these entries written in order: a repeated key keeps its first place and its last value. -/
def ofList (entries : Entries) : Entries := merge [] entries

def keys (entries : Entries) : List Value := entries.map (·.1)

def values (entries : Entries) : List Value := entries.map (·.2)

/-- The entries with their keys read as texts, if all of them are. -/
def named? (entries : Entries) : Option (List (String × Value)) :=
  (entries.mapM (fun (e : Value × Value) => e.1.readText?.map (fun key => (key, e.2)))).map (Text.putAll [])

def ofNames (fields : List (String × Value)) : Entries := fields.map (fun f => (.text f.1, f.2))

end Entries

end SqlCompose
