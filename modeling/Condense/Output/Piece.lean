import Condense.Output.Mapping
import Condense.Syntax.Tree

/-!
Code as a sequence of pieces, and the text they make.
-/

namespace Condense

mutual

inductive Piece where
  /-- A token, kept apart from what stands before it. -/
  | token (text : String)
  /-- Text that follows directly on what stands before it. -/
  | glued (text : String)
  /-- A token whose place in the source is recorded. -/
  | mapped (text : String) (node : NodeId) (name : Option String)
  /-- A new line with so many spaces of indentation, unless it would be the first. -/
  | line (indentation : Nat)
  /-- A comment on lines of its own. -/
  | comment (text : String)
  /-- A conditional comment. -/
  | conditional (parts : List ConditionalPart)

inductive ConditionalPart where
  /-- The statement that switches conditional compilation on. -/
  | on
  /-- Anything else, and whether it needs a semicolon when something follows. -/
  | code (pieces : List Piece) (isOpen : Bool)

end

def ConditionalPart.isOn : ConditionalPart → Bool
  | on => true
  | code .. => false

def isWordChar (c : Char) : Bool :=
  c.isAlphanum || c == '_' || c == '$' || c == '\\' || c.toNat ≥ 0x80

/-- Whether two characters next to each other would fuse two tokens. -/
def fuses (before after : Char) : Bool :=
  (isWordChar before && (isWordChar after || after == '@'))
    || (before == '+' && after == '+')
    || (before == '-' && after == '-')
    || (before == '/' && after == '/')
    || (before == '<' && after == '!')

structure WriterOptions where
  tree : Tree
  recordsMappings : Bool
  /-- Whether conditional compilation is switched on only once. -/
  dropsRepeatedOn : Bool

structure Written where
  /-- The characters, last first. -/
  reversed : List Char := []
  line : UInt32 := 1
  column : UInt32 := 1
  mappings : Array Mapping := #[]
  isConditionalOn : Bool := false

namespace Written

def code (w : Written) : String :=
  String.ofList w.reversed.reverse

def pushChar (w : Written) (c : Char) : Written :=
  if c = '\n' then { w with reversed := c :: w.reversed, line := w.line + 1, column := 1 }
  else { w with reversed := c :: w.reversed, column := w.column + 1 }

def push (w : Written) (text : String) : Written :=
  text.toList.foldl pushChar w

/-- Writes a space if `text` would fuse with what stands before it. -/
def separate (w : Written) (text : String) : Written :=
  match w.reversed, text.toList with
  | before :: _, after :: _ => if fuses before after then w.pushChar ' ' else w
  | _, _ => w

def token (w : Written) (text : String) : Written :=
  (w.separate text).push text

def record (w : Written) (tree : Tree) (node : NodeId) (name : Option String) : Written :=
  let span := tree.span node
  let mapping : Mapping :=
    { generatedLine := w.line
      generatedColumn := w.column
      source := tree.fileName? span.file
      sourceLine := span.start.line
      sourceColumn := span.start.column
      name }
  { w with mappings := Mapping.record w.mappings mapping }

def comment (w : Written) (text : String) : Written :=
  let w := match w.reversed with
    | [] | '\n' :: _ => w
    | _ => w.pushChar '\n'
  (w.push text).pushChar '\n'

def newLine (w : Written) (indentation : Nat) : Written :=
  if w.reversed.isEmpty then w
  else (w.pushChar '\n').push ("".pushn ' ' indentation)

def semicolonIf (w : Written) (isOpen : Bool) : Written :=
  if isOpen then w.token ";" else w

mutual

def add (options : WriterOptions) (w : Written) : Piece → Written
  | .token text => w.token text
  | .glued text => w.push text
  | .mapped text node name =>
    let w := w.separate text
    let w := if options.recordsMappings then w.record options.tree node name else w
    w.push text
  | .line indentation => w.newLine indentation
  | .comment text => w.comment text
  | .conditional parts =>
    let drop := options.dropsRepeatedOn && w.isConditionalOn
    if parts.all fun part => drop && part.isOn then w
    else (addParts options drop (w.token "/*") false parts).token "@*/"

def addAll (options : WriterOptions) (w : Written) : List Piece → Written
  | [] => w
  | piece :: rest => addAll options (add options w piece) rest

/-- Writes what is inside a conditional comment; `isOpen` says that a semicolon is due. -/
def addParts (options : WriterOptions) (drop : Bool) (w : Written) (isOpen : Bool) :
    List ConditionalPart → Written
  | [] => w
  | .on :: rest =>
    if drop then addParts options drop w isOpen rest
    else
      let w := (w.semicolonIf isOpen).token "@cc_on"
      addParts options drop { w with isConditionalOn := true } false rest
  | .code pieces isOpen' :: rest =>
    addParts options drop (addAll options (w.semicolonIf isOpen) pieces) isOpen' rest

end

end Written

end Condense
