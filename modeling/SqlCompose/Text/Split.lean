import SqlCompose.Text.Blank

/-! # Cutting and joining texts

`splitOn` cuts at every separator and always gives at least one piece; `cut?` cuts at the first one and
`cutLast?` at the last one. A comma list is cut at its commas, its parts are trimmed, and empty parts are dropped.
-/

namespace SqlCompose.Text

def splitOn (sep : Char) : List Char → List (List Char)
  | [] => [[]]
  | c :: rest =>
    if c == sep then [] :: splitOn sep rest
    else
      match splitOn sep rest with
      | [] => [[c]]
      | piece :: more => (c :: piece) :: more

def cut? (sep : Char) : List Char → Option (List Char × List Char)
  | [] => none
  | c :: rest =>
    if c == sep then some ([], rest)
    else (cut? sep rest).map (fun (before, after) => (c :: before, after))

def cutLast? (sep : Char) : List Char → Option (List Char × List Char)
  | [] => none
  | c :: rest =>
    match cutLast? sep rest with
    | some (before, after) => some (c :: before, after)
    | none => if c == sep then some ([], rest) else none

def commaParts (s : List Char) : List (List Char) :=
  ((splitOn ',' s).map trim).filter (fun part => !part.isEmpty)

def names (s : String) : List String := (commaParts s.toList).map String.ofList

def between {α : Type} (sep : List α) : List (List α) → List α
  | [] => []
  | [item] => item
  | item :: more => item ++ sep ++ between sep more

def hasChar (c : Char) (s : String) : Bool := s.toList.contains c

end SqlCompose.Text
