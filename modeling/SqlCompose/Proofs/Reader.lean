import SqlCompose.Dialect
import SqlCompose.Proofs.Formula

/-! # Reading conditions

Conditions are read as SQL reads them. First the text is cut into lexemes, where a quoted identifier is one and a
dotted sequence of them names one column. Then `OR` binds weakest, `AND` binds stronger, and predicates bind strongest;
the `AND` of a `BETWEEN` is part of its predicate.
-/
namespace SqlCompose

inductive Lexeme where
  | opening
  | closing
  | comma
  | column (p : Path)
  | placeholder (name : String)
  | word (w : String)
  | sign (s : String)
  | number (digits : String)
  deriving DecidableEq, Repr, Inhabited

namespace Reader

def isSign (c : Char) : Bool := c == '=' || c == '<' || c == '>' || c == '!'

def isNameEnd (c : Char) : Bool := c == ' ' || c == ',' || c == ')'

def identifier? (q : Char) : List Char → Option (List Char × List Char)
  | [] => none
  | c :: rest =>
    if c = q then
      match rest with
      | [] => some ([],[])
      | c' :: rest' => if c' = q then (identifier? q rest').map (fun (s,r) => (q :: s,r)) else some ([],rest)
    else (identifier? q rest).map (fun (s,r) => (c :: s,r))

def segments? (q : Char) : (limit : Nat) → List Char → Option ((List String × Bool) × List Char)
  | 0, _ => none
  | limit + 1, cs =>
    match identifier? q cs with
    | none => none
    | some (s,rest) =>
      match rest with
      | '.' :: '*' :: rest => some (([String.ofList s],true),rest)
      | '.' :: c :: rest =>
        if c = q then (segments? q limit rest).map (fun ((more,starred),r) => ((String.ofList s :: more,starred),r))
        else none
      | rest => some (([String.ofList s],false),rest)

def run (keep : Char → Bool) (make : String → Lexeme) (cs : List Char) : Option (Lexeme × List Char) :=
  some (make (String.ofList (cs.takeWhile keep)),cs.dropWhile keep)

def lexeme? (q : Char) : List Char → Option (Lexeme × List Char)
  | [] => none
  | '(' :: rest => some (.opening,rest)
  | ')' :: rest => some (.closing,rest)
  | ',' :: rest => some (.comma,rest)
  | '*' :: rest => some (.column ⟨[],true⟩,rest)
  | ':' :: rest => run (fun c => !isNameEnd c) .placeholder rest
  | '%' :: '(' :: rest =>
    match rest.dropWhile (fun c => !isNameEnd c) with
    | ')' :: 's' :: after => some (.placeholder (String.ofList (rest.takeWhile (fun c => !isNameEnd c))),after)
    | _ => none
  | c :: rest =>
    if c = q then (segments? q (rest.length + 1) rest).map (fun ((s,starred),r) => (.column ⟨s,starred⟩,r))
    else if isSign c then run isSign .sign (c :: rest)
    else if c.isDigit then run Char.isDigit .number (c :: rest)
    else if c.isUpper then run Char.isUpper .word (c :: rest)
    else none

def lex (q : Char) : (limit : Nat) → List Char → Option (List Lexeme)
  | _, [] => some []
  | 0, _ => none
  | limit + 1, c :: rest =>
    if c = ' ' then lex q limit rest
    else
      match lexeme? q (c :: rest) with
      | none => none
      | some (l,rest) => (lex q limit rest).map (l :: ·)

/-! ## Predicates -/

def operand? : List Lexeme → Option (Operand String × List Lexeme)
  | .word "NULL" :: rest => some (.null,rest)
  | .placeholder name :: rest => some (.bound name,rest)
  | _ => none

def listed? {α : Type} (item? : List Lexeme → Option (α × List Lexeme)) :
    (limit : Nat) → List Lexeme → Option (List α × List Lexeme)
  | 0, _ => none
  | limit + 1, ts =>
    match item? ts with
    | some (a,.closing :: rest) => some ([a],rest)
    | some (a,.comma :: rest) => (listed? item? limit rest).map (fun (as,r) => (a :: as,r))
    | _ => none

def inParentheses? {α : Type} (item? : List Lexeme → Option (α × List Lexeme)) :
    List Lexeme → Option (List α × List Lexeme)
  | .opening :: ts => listed? item? ts.length ts
  | _ => none

def column? : List Lexeme → Option (Path × List Lexeme)
  | .column p :: rest => some (p,rest)
  | _ => none

def comparisons : List Comparison := [.eq,.ne,.bang,.gt,.ge,.lt,.le]

def comparison? (s : String) : Option Comparison := comparisons.find? (fun c => c.token == s)

def bounds? (ts : List Lexeme) : Option ((Operand String × Operand String) × List Lexeme) :=
  match operand? ts with
  | some (low,.word "AND" :: rest) => (operand? rest).map (fun (high,r) => ((low,high),r))
  | _ => none

def worded? (p : Path) (negated : Bool) : List Lexeme → Option (Predicate String × List Lexeme)
  | .word "BETWEEN" :: rest => (bounds? rest).map (fun ((low,high),r) => (.between negated p low high,r))
  | .word "IN" :: rest => (inParentheses? operand? rest).map (fun (values,r) => (.member negated p values,r))
  | .word "LIKE" :: rest => (operand? rest).map (fun (pattern,r) => (.like negated p pattern,r))
  | _ => none

def behindColumn? (p : Path) : List Lexeme → Option (Predicate String × List Lexeme)
  | .sign s :: rest =>
    match comparison? s with
    | some c => (operand? rest).map (fun (o,r) => (.compare c p o,r))
    | none => none
  | .word "IS" :: .word "NULL" :: rest => some (.isNull p,rest)
  | .word "NOT" :: rest => worded? p true rest
  | rest => worded? p false rest

def behindColumns? (ps : List Path) : List Lexeme → Option (Predicate String × List Lexeme)
  | .word "NOT" :: .word "IN" :: rest =>
    (inParentheses? (inParentheses? operand?) rest).map (fun (rows,r) => (.rowMember true ps rows,r))
  | .word "IN" :: rest =>
    (inParentheses? (inParentheses? operand?) rest).map (fun (rows,r) => (.rowMember false ps rows,r))
  | _ => none

def predicate? : List Lexeme → Option (Formula String × List Lexeme)
  | .number "0" :: .sign "=" :: .number "1" :: rest => some (.never,rest)
  | .column p :: rest => (behindColumn? p rest).map (fun (a,r) => (.atom a,r))
  | .opening :: rest =>
    match inParentheses? column? (.opening :: rest) with
    | some (ps,rest) => (behindColumns? ps rest).map (fun (a,r) => (.atom a,r))
    | none => none
  | _ => none

/-! ## Connectives -/

def chain? (word : String) (item? : List Lexeme → Option (Formula String × List Lexeme)) :
    (limit : Nat) → List Lexeme → Option (List (Formula String) × List Lexeme)
  | 0, _ => none
  | limit + 1, ts =>
    match item? ts with
    | none => none
    | some (f,rest) =>
      match rest with
      | .word w :: rest' =>
        if w = word then (chain? word item? limit rest').map (fun (fs,r) => (f :: fs,r)) else some ([f],rest)
      | _ => some ([f],rest)

def chained? (any : Bool) (item? : List Lexeme → Option (Formula String × List Lexeme)) (ts : List Lexeme) :
    Option (Formula String × List Lexeme) :=
  (chain? (connective any) item? ts.length ts).bind
    (fun (fs,r) => (Formula.gather any fs).map (fun f => (f,r)))

def factor? (nested : List Lexeme → Option (Formula String × List Lexeme)) (ts : List Lexeme) :
    Option (Formula String × List Lexeme) :=
  match predicate? ts with
  | some r => some r
  | none =>
    match ts with
    | .opening :: rest =>
      match nested rest with
      | some (f,.closing :: r) => some (f,r)
      | _ => none
    | _ => none

def formula? : (depth : Nat) → List Lexeme → Option (Formula String × List Lexeme)
  | 0, _ => none
  | depth + 1, ts => chained? true (chained? false (factor? (formula? depth))) ts

/-- What a text says; an empty text says nothing. -/
def read (q : Char) (text : String) : Option (Option (Formula String)) :=
  match lex q text.toList.length text.toList with
  | none => none
  | some [] => some none
  | some ts =>
    match formula? (ts.length + 1) ts with
    | some (f,[]) => some (some f)
    | _ => none

end Reader

end SqlCompose
