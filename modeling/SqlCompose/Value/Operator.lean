import SqlCompose.Text.Split

/-! # Condition operators and sort directions

An operator is written by its token. Beside the token it has a label, the token's words (or a short
name for a sign) joined by underscores. A token is read in any letter case: only upper-casing to ASCII letters
matters for that, and beside the ASCII small letters the dotless i and the long s have ASCII capitals.
-/

namespace SqlCompose

namespace Text

def upperChar (c : Char) : Char :=
  let n := c.toNat
  if 97 ≤ n && n ≤ 122 then Char.ofNat (n - 32)
  else if c == 'ı' then 'I'
  else if c == 'ſ' then 'S'
  else c

/-- Upper case, for comparison with ASCII keywords. -/
def keyword (s : List Char) : List Char := s.map upperChar

def keywords (s : List Char) : List Char := between [' '] ((words s).map keyword)

end Text

inductive Comparison where
  | eq | ne | bang | gt | ge | lt | le
  deriving DecidableEq, Repr, Inhabited

inductive Operator where
  | and
  | or
  | between (negated : Bool)
  | member (negated : Bool)
  | like (any : Bool) (negated : Bool)
  | compare (c : Comparison)
  deriving DecidableEq, Repr, Inhabited

inductive Direction where
  | ascending
  | descending
  deriving DecidableEq, Repr, Inhabited

namespace Comparison

def token : Comparison → String
  | .eq => "=" | .ne => "<>" | .bang => "!=" | .gt => ">" | .ge => ">=" | .lt => "<" | .le => "<="

def label : Comparison → String
  | .eq => "EQ" | .ne => "NE" | .bang => "NE_ALT" | .gt => "GT" | .ge => "GTE" | .lt => "LT" | .le => "LTE"

end Comparison

namespace Operator

def token : Operator → String
  | .and => "AND"
  | .or => "OR"
  | .between negated => if negated then "NOT BETWEEN" else "BETWEEN"
  | .member negated => if negated then "NOT IN" else "IN"
  | .like false negated => if negated then "NOT LIKE" else "LIKE"
  | .like true negated => if negated then "OR NOT LIKE" else "OR LIKE"
  | .compare c => c.token

def label : Operator → String
  | .compare c => c.label
  | op => op.token.map (fun c => if c == ' ' then '_' else c)

def qualified (op : Operator) : String := "ConditionOp." ++ op.label

def all : List Operator :=
  [.and, .or, .between false, .between true, .member false, .member true, .like false false,
    .like false true, .like true false, .like true true] ++
  [Comparison.eq, .ne, .bang, .gt, .ge, .lt, .le].map .compare

def ofToken? (s : String) : Option Operator := all.find? (fun op => op.token == s)

/-- The operator whose token this is, in any letter case and with any blanks around and between its words. -/
def read? (s : String) : Option Operator := ofToken? (String.ofList (Text.keywords s.toList))

end Operator

namespace Direction

def token : Direction → String
  | .ascending => "ASC"
  | .descending => "DESC"

def qualified (d : Direction) : String := "SortDirection." ++ d.token

def all : List Direction := [.ascending, .descending]

def ofToken? (s : String) : Option Direction := all.find? (fun d => d.token == s)

end Direction

end SqlCompose
