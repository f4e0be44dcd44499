import PureCalls.Comments

/-! Text that is written piece by piece, with its indentation and with the comments that belong to it. -/
namespace PureCalls.Printer

/-- What is written so far, and the comments that are still to be written. -/
structure Output where
  text : String := ""
  atLineStart : Bool := true
  /-- How many steps new lines are indented. -/
  indentation : Nat := 0
  leading : Comments
  trailing : Comments
  /-- Whether all blanks are left out that can be left out. -/
  compact : Bool
  deriving Inhabited

abbrev Print := StateM Output Unit

/-- Writes nothing. -/
def nothing : Print := return

/-- Adds text to the current line, which is indented first if it is new. -/
def Output.write (o : Output) (text : String) : Output :=
  if text.isEmpty then o
  else
    let start := if o.atLineStart then "".pushn ' ' (4 * o.indentation) else ""
    { o with text := o.text ++ start ++ text, atLineStart := false }

/-- Ends the current line, unless nothing is written on it. -/
def Output.endLine (o : Output) : Output :=
  if o.atLineStart then o else { o with text := o.text.push '\n', atLineStart := true }

def write (text : String) : Print :=
  modify fun o => o.write text

def endLine : Print :=
  modify fun o => o.endLine

/-- Runs `p` unless the output is compact. -/
def spacious (p : Print) : Print := do
  if (← get).compact then nothing else p

/-- Writes a blank that is needed. -/
def space : Print :=
  write " "

/-- Writes a blank that only serves the reader. -/
def gap : Print :=
  spacious space

/-- Ends the line, which only serves the reader. -/
def newLine : Print :=
  spacious endLine

/-- Writes a blank, which can be left out unless `needed`. -/
def blank (needed : Bool) : Print :=
  if needed then space else gap

/-- Writes `p` with its new lines indented one step more. -/
def indented (p : Print) : Print := do
  modify fun o => { o with indentation := o.indentation + 1 }
  p
  modify fun o => { o with indentation := o.indentation - 1 }

/-- Writes a comment, with a blank in front if it follows other text of its line. -/
def comment (spaced : Bool) (c : Comment) : Print := do
  if spaced then gap
  match c.kind with
  | .line =>
    write ("//" ++ c.text)
    endLine
  | .block =>
    write ("/*" ++ c.text ++ "*/")
    gap

/-- Writes the comments in front of what starts at a position. No comment is written twice. -/
def leadingAt (p : Pos) : Print := do
  let o ← get
  if p = .dummy then nothing
  else
    set { o with leading := o.leading.set p [] }
    (o.leading.get p).forM (comment false)

/-- Writes the comments behind what ends at a position. No comment is written twice. -/
def trailingAt (p : Pos) (spaced : Bool) : Print := do
  let o ← get
  if p = .dummy then nothing
  else
    set { o with trailing := o.trailing.set p [] }
    (o.trailing.get p).forM (comment spaced)

/-- Writes the comments in front of a node. -/
def leading (t : Tree) : Print :=
  leadingAt t.start

/-- Writes the comments behind a node. -/
def trailing (t : Tree) : Print :=
  trailingAt t.stop true

/-- How a list is laid out. -/
structure Layout where
  /-- Whether every item has a line of its own. -/
  multiLine : Bool := false
  indents : Bool := false
  /-- What stands between two items. -/
  delimiter : String := ""
  /-- Whether a blank stands in front of the delimiter too. -/
  spacedDelimiter : Bool := false
  /-- Whether a blank stands between two items of a line. -/
  spaced : Bool := false
  /-- Whether a blank stands before the first and behind the last item of a line. -/
  padded : Bool := false
  /-- Whether a blank stands there even if there is no item. -/
  paddedEmpty : Bool := false
  /-- Whether nothing at all is written where there is no item. -/
  optional : Bool := false
  /-- Whether the line ends behind the last item. -/
  endsLine : Bool := true
  /-- Whether a comma follows the last item. -/
  commaAtEnd : Bool := false
  /-- Whether comments are written between the items. -/
  comments : Bool := true

namespace Layout

def commas : Layout := { delimiter := ",", spaced := true }

/-- Items in lines of their own, such as statements in a block. -/
def lines : Layout := { multiLine := true, indents := true }

/-- Members of an object in lines of their own. -/
def properties : Layout := { multiLine := true, indents := true, delimiter := "," }

/-- Members of an object in one line. -/
def flatProperties : Layout := { delimiter := ",", spaced := true, padded := true }

/-- What an import or export declaration names. -/
def specifiers : Layout := { delimiter := ",", spaced := true, padded := true, paddedEmpty := true }

/-- Statements behind a case. -/
def cases : Layout := { multiLine := true, indents := true, optional := true, endsLine := false }

/-- Members of a union or an intersection of types. -/
def joined (sign : String) : Layout := { delimiter := sign, spacedDelimiter := true, spaced := true }

/-- The attributes of a tag. -/
def attributes : Layout := { spaced := true, comments := false }

/-- What stands between two tags. -/
def children : Layout := { comments := false }

end Layout

/-- Where a node of a list is written. -/
def spanOf (t : Tree) : Span :=
  match t with
  | .node _ (some span) _ => span
  | .node kind none _ =>
    if kind = .keyValue || kind = .keyValuePattern then ⟨(t.field .key).start, (t.field .value).stop⟩
    else
      match t.field .spread with
      | .range dots => ⟨dots.start, (t.field .expression).stop⟩
      | _ => ⟨(t.field .expression).start, (t.field .expression).stop⟩
  | _ => ⟨.dummy, .dummy⟩

/-- Writes what stands between an item and the next one. -/
private def between (layout : Layout) (parent previous : Span) : Print := do
  if layout.delimiter ≠ "" then
    if previous.stop ≠ parent.stop then trailingAt previous.stop false
    if layout.spacedDelimiter then gap
    write layout.delimiter
  if layout.multiLine then newLine
  else if layout.spaced then gap

/-- Writes items behind the item that ends where `previous` does. -/
private def listItems (layout : Layout) (parent : Span) (item : Tree → Print) (previous : Option Span) :
    List Tree → Print
  | [] =>
    match previous with
    | some previous => do
      if layout.commaAtEnd then
        write ","
        gap
      if layout.delimiter ≠ "" && previous.stop ≠ parent.stop then trailingAt previous.stop false
    | none => nothing
  | t :: rest => do
    let span := spanOf t
    match previous with
    | some previous => between layout parent previous
    | none => nothing
    if layout.comments && !layout.multiLine then trailingAt span.start false
    item t
    listItems layout parent item (some span) rest

/-- Writes a list that is a part of the node at `parent`. -/
def list (layout : Layout) (parent : Span) (item : Tree → Print) (items : List Tree) : Print := do
  if items.isEmpty then
    if layout.optional then nothing
    else if layout.multiLine then newLine
    else if layout.paddedEmpty then gap
    else nothing
  else
    if layout.multiLine then newLine
    else if layout.padded then gap
    let written := listItems layout parent item none items
    if layout.indents && !(← get).compact then indented written else written
    if layout.multiLine then
      if layout.endsLine then newLine else nothing
    else if layout.padded then gap

end PureCalls.Printer
