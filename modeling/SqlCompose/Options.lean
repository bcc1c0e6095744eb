import SqlCompose.Draft
import SqlCompose.Reading.Record
import SqlCompose.Text.Characters

/-! # Options

Options hold for every statement of one composer: the separator between clauses, the stem of generated
placeholders, and column types that override or extend those of the dialect. A stem is an ASCII letter or
an underscore and then word characters; one final line feed is let through.
-/

namespace SqlCompose

structure Options where
  separator : String := " "
  stem : String := "qp"
  types : List (String × String) := []
  deriving DecidableEq, Repr, Inhabited

namespace Options

def isStem (s : String) : Bool :=
  match s.toList with
  | [] => false
  | c :: rest =>
    (Text.isAsciiLetter c || c == '_') &&
      (rest.dropWhile Text.isWordChar == [] || rest.dropWhile Text.isWordChar == ['\n'])

def readStem? (v : Value) : Option String := v.readText?.filter isStem

def ofEntries (m : Memory) (entries : Entries) : Checked Options :=
  let separator := (entries.field? "separator").elim (some " ") Value.readText?
  let stem := (entries.field? "param_prefix").elim (some "qp") readStem?
  let types := (entries.field? "type_map").elim (some []) (fun v => v.readTexts? m)
  Checked.ofFields (do return { separator := ← separator, stem := ← stem, types := ← types })
    [("separator", separator.isSome), ("param_prefix", stem.isSome), ("type_map", types.isSome)]
    (entries.unknown m ["separator", "param_prefix", "type_map"])

def ofValue (m : Memory) (v : Value) : Except Fault Options := do
  (ofEntries m (← Record.arguments m v)).orFault .options

def setting (o : Options) (d : Dialect) : Setting :=
  { dialect := d, stem := o.stem, separator := o.separator }

end Options

end SqlCompose
