import SqlCompose.Text.Blank
import SqlCompose.Text.Characters

/-! # Aliases and sort directions at the end of an item

An item such as `price AS p`, `price p` or `price desc` is cut at the leftmost place where the rest
reads as a tail of the wanted form. The part before the cut has no line feed, and a tail may be
followed by one final line feed.
-/

namespace SqlCompose.Text

/-- Cuts at the leftmost place whose rest `tail?` accepts. -/
def cutWhere? {α : Type} (tail? : List Char → Option α) : List Char → Option (List Char × α)
  | [] => none
  | c :: rest =>
    match tail? (c :: rest) with
    | some a => some ([], a)
    | none =>
      if c == '\n' then none
      else (cutWhere? tail? rest).map (fun (before, a) => (c :: before, a))

def isEnd (s : List Char) : Bool := s == [] || s == ['\n']

def afterBlanks? (s : List Char) : Option (List Char) :=
  match s with
  | [] => none
  | c :: _ => if isBlank c then some (trimLeft s) else none

/-- What follows `letter`, given in lower case, in either case; the long s counts as an s. -/
def afterLetter? (letter : Char) : List Char → Option (List Char)
  | [] => none
  | c :: rest =>
    if c == letter || c.toNat + 32 == letter.toNat || (c == 'ſ' && letter == 's') then some rest
    else none

def afterWord? (word : List Char) (s : List Char) : Option (List Char) :=
  word.foldl (fun rest letter => rest.bind (afterLetter? letter)) (some s)

def isAliasChar (c : Char) : Bool := isWordChar c || c == '-' || c == '.'

def wordAlias? (s : List Char) : Option (List Char) :=
  let run := s.takeWhile isAliasChar
  if !run.isEmpty && isEnd (s.dropWhile isAliasChar) then some run else none

def lineAlias? (s : List Char) : Option (List Char) :=
  let run := s.takeWhile (· != '\n')
  if isEnd (s.dropWhile (· != '\n')) then some run else none

/-- Blanks, then optionally `as` and blanks, then the alias; the reading with `as` goes first. -/
def aliasTail? (alias? : List Char → Option (List Char)) (s : List Char) : Option (List Char) :=
  (afterBlanks? s).bind fun rest =>
    (((afterWord? ['a', 's'] rest).bind afterBlanks?).bind alias?).or (alias? rest)

def columnAlias? (s : List Char) : Option (List Char × List Char) := cutWhere? (aliasTail? wordAlias?) s

def tableAlias? (s : List Char) : Option (List Char × List Char) := cutWhere? (aliasTail? lineAlias?) s

def directionTail? (s : List Char) : Option Bool :=
  (afterBlanks? s).bind fun rest =>
    if ((afterWord? ['a', 's', 'c'] rest).map isEnd).getD false then some false
    else if ((afterWord? ['d', 'e', 's', 'c'] rest).map isEnd).getD false then some true
    else none

def sortItem? (s : List Char) : Option (List Char × Bool) := cutWhere? directionTail? s

end SqlCompose.Text
