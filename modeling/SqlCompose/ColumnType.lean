import SqlCompose.Fault
import SqlCompose.Text.Characters
import SqlCompose.Text.Split

/-! # Column types

An abstract column type stands for a template of physical SQL. It is written as its bare name, as the
name with a length in parentheses, which replaces the parentheses of the template, or as the name with
words behind it. What follows the name or the length is kept. All other types are physical and stay as
they are.
-/

namespace SqlCompose.ColumnType

abbrev TypeMap := List (String × String)

def template? (types : TypeMap) (name : List Char) : Option (List Char) :=
  (types.lookup (String.ofList name)).map String.toList

/-- The parts of `name(size)rest`: neither name nor size is empty, and the size ends at the first closing
parenthesis after its first character. -/
def sized? (s : List Char) : Option (List Char × List Char × List Char) :=
  let name := s.takeWhile Text.isWordChar
  match s.dropWhile Text.isWordChar with
  | '(' :: c :: more =>
    if name.isEmpty then none else (Text.cut? ')' more).map (fun (size, rest) => (name, c :: size, rest))
  | _ => none

/-- One line of a template with the text from its first opening to its last closing parenthesis replaced. -/
def resizeLine (size line : List Char) : List Char :=
  match Text.cut? '(' line with
  | none => line
  | some (head, inner) =>
    match Text.cutLast? ')' inner with
    | none | some ([], _) => line
    | some (_, tail) => head ++ ['('] ++ size ++ [')'] ++ tail

def resize (size template : List Char) : List Char :=
  Text.between ['\n'] ((Text.splitOn '\n' template).map (resizeLine size))

def modified? (s : List Char) : Option (List Char × List Char) :=
  let name := s.takeWhile Text.isWordChar
  let rest := s.dropWhile Text.isWordChar
  if !name.isEmpty && (rest.head?.map Text.isBlank).getD false then some (name, rest) else none

/-- How a column type is written, if it is not just a name. -/
inductive Written where
  | sized (name size rest : List Char)
  | modified (name rest : List Char)
  | other
  deriving DecidableEq, Repr, Inhabited

def written (s : List Char) : Written :=
  match sized? s with
  | some (name, size, rest) => .sized name size rest
  | none =>
    match modified? s with
    | some (name, rest) => .modified name rest
    | none => .other

def resolveChars? (types : TypeMap) (s : List Char) : Option (List Char) :=
  match template? types s with
  | some template => some template
  | none =>
    match written s with
    | .sized name size rest => (template? types name).map (resize size · ++ rest)
    | .modified name rest => (template? types name).map (· ++ rest)
    | .other => none

def resolve? (types : TypeMap) (s : String) : Option String :=
  (resolveChars? types s.toList).map String.ofList

def resolve (types : TypeMap) (s : String) : String := (resolve? types s).getD s

/-- The template of a name changed by `change`, or `type` if the name has none. -/
def filled (types : Entries) (type : String) (name : List Char) (change : List Char → List Char) :
    Except Misuse Value :=
  match types.get? (.text (String.ofList name)) with
  | none | some .null => .ok (.text type)
  | some template =>
    match template.text? with
    | some s => .ok (.text (String.ofList (change s.toList)))
    | none => .error .wrongType

/-- The physical type of a column type where any values serve as templates: as it is written, a type may
stand for any of them, but only a text can be given a length or be followed by words. -/
def resolveIn (types : Entries) (type : String) : Except Misuse Value :=
  match types.get? (.text type) with
  | some template => .ok template
  | none =>
    match written type.toList with
    | .sized name size rest => filled types type name (resize size · ++ rest)
    | .modified name rest => filled types type name (· ++ rest)
    | .other => .ok (.text type)

end SqlCompose.ColumnType
